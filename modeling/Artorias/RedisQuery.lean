import Artorias.Linearize
import Artorias.RedisConns

/-!
# Clients of the store (`dial/redis`)

`NewConn` opens a connection with a SELECT, and `Query` sends a command and reads
until a parser has got the reply. The bytes of either side are on their way for as
long as they like, and come in any pieces; the calls of `HandleBytes` for the
different connections interleave (`RedisConns`).
-/

namespace Artorias

def selectName : Bytes := [83, 69, 76, 69, 67, 84]

/-- The length of the buffer in `NewConn`. -/
def newConnBuf : Nat := 8

/-- The length of the buffer in `Query`. -/
def queryBuf : Nat := 1024

/-- The text of `okReply`. -/
def okText : Bytes := [79, 75]

/-- Where a client is. -/
inductive QueryAt where
  /-- before `NewConn` -/
  | new
  /-- `conn.Read` in `NewConn` -/
  | dialing
  | idle
  /-- `rc.conn.Read` in `Query` -/
  | reading (p : Parser)
  /-- `NewConn` has failed, or a `Read` of `Query`: the connection is not there any
  more. -/
  | failed

/-- The call `op i` is the last one of client `i`; the first is that of `NewConn`. -/
structure RedisNet where
  server : RedisConns
  /-- what the server has sent and the client not read -/
  replies : Nat → Bytes
  clients : Nat → QueryAt
  op : Nat → Nat
  hist : List (HistEvent (Nat × Nat) (List (Option Bytes)) Resp)

/-- The bytes that a reply puts on the connection. -/
def ProtocolReply.bytes : ProtocolReply → Bytes
  | .noReply => []
  | .client replyBytes => replyBytes

namespace RedisNet

def start : RedisNet := ⟨newRedisConns, fun _ => [], fun _ => .new, fun _ => 0, []⟩

/-- `Write(WrapMulitBulk(..))`: the request is on its way. -/
def asks (s : RedisNet) (i : Nat) (argv : List (Option Bytes)) (bs : Bytes) (at' : QueryAt) :
    RedisNet :=
  { s with
    server := { s.server with waiting := Function.update s.server.waiting i (some (argv, bs)) }
    clients := Function.update s.clients i at'
    op := Function.update s.op i (s.op i + 1)
    hist := s.hist ++ [.call (i, s.op i + 1) argv] }

def setClient (s : RedisNet) (i : Nat) (c : QueryAt) : RedisNet :=
  { s with clients := Function.update s.clients i c }

/-- The client takes bytes, and `rest` is left. -/
def takes (s : RedisNet) (i : Nat) (rest : Bytes) (c : QueryAt) : RedisNet :=
  { s.setClient i c with replies := Function.update s.replies i rest }

/-- The call of client `i` returns. -/
def returns (s : RedisNet) (i : Nat) (v : Resp) : RedisNet :=
  { s with hist := s.hist ++ [.ret (i, s.op i) v] }

def answered (s : RedisNet) (i : Nat) (argv : List (Option Bytes)) (rest : Bytes)
    (store : StoreBlock) (state : ConnState) (reply : ProtocolReply) : RedisNet :=
  { s with
    server := s.server.delivered i argv rest store state reply
    replies := Function.update s.replies i (s.replies i ++ reply.bytes) }

inductive Reach (lim : Nat) (upper : Bytes → Bytes) : RedisNet → Prop where
  | start : Reach lim upper .start
  /-- `NewConn`, up to its `Read` -/
  | dial {s : RedisNet} {i : Nat} {db bs : Bytes} : Reach lim upper s → s.clients i = .new →
      ArgsFit lim [some selectName, some db] →
      wrapMulitBulk 2 [some selectName, some db] = .ok bs →
        Reach lim upper (s.asks i [some selectName, some db] bs .dialing)
  /-- `Query`, up to its first `Read` -/
  | query {s : RedisNet} {i : Nat} {argv : List (Option Bytes)} {bs : Bytes} : Reach lim upper s →
      s.clients i = .idle → ArgsFit lim argv → wrapMulitBulk argv.length argv = .ok bs →
        Reach lim upper (s.asks i argv bs (.reading newParser))
  | deliver {s : RedisNet} {i : Nat} {argv : List (Option Bytes)} {piece rest : Bytes}
      {store : StoreBlock} {state : ConnState} {reply : ProtocolReply} : Reach lim upper s →
      s.server.waiting i = some (argv, piece ++ rest) →
      handleBytes lim upper s.server.store (s.server.conns i) piece = .ok (store, state, reply) →
        Reach lim upper (s.answered i argv rest store state reply)
  /-- `NewConn` wants the whole reply at once. -/
  | dialed {s : RedisNet} {i : Nat} {buf rest : Bytes} : Reach lim upper s →
      s.clients i = .dialing → s.replies i = buf ++ rest → buf ≠ [] → buf.length ≤ newConnBuf →
      buf = okReply → Reach lim upper ((s.takes i rest .idle).returns i (.status okText))
  | refused {s : RedisNet} {i : Nat} {buf rest : Bytes} : Reach lim upper s →
      s.clients i = .dialing → s.replies i = buf ++ rest → buf ≠ [] → buf.length ≤ newConnBuf →
      buf ≠ okReply → Reach lim upper (s.takes i rest .failed)
  /-- A turn of the loop in `Query`, and no command yet -/
  | more {s : RedisNet} {i n : Nat} {p p' : Parser} {buf rest : Bytes} : Reach lim upper s →
      s.clients i = .reading p → s.replies i = buf ++ rest → buf ≠ [] → buf.length ≤ queryBuf →
      p.write lim buf = .ok (p', n) → p'.getCommand = none →
        Reach lim upper (s.takes i rest (.reading p'))
  | last {s : RedisNet} {i n : Nat} {p p' : Parser} {buf rest : Bytes} {rc : Ref} {v : Resp} :
      Reach lim upper s → s.clients i = .reading p → s.replies i = buf ++ rest → buf ≠ [] →
      buf.length ≤ queryBuf → p.write lim buf = .ok (p', n) → p'.getCommand = some rc →
      Denotes p'.commands rc v → Reach lim upper ((s.takes i rest .idle).returns i v)
  /-- `Read` returns an error. -/
  | fails {s : RedisNet} {i : Nat} : Reach lim upper s →
      (s.clients i = .dialing ∨ ∃ p, s.clients i = .reading p) →
        Reach lim upper (s.setClient i .failed)

end RedisNet

/-! ## The store as one caller sees it -/

def resultOf (upper : Bytes → Bytes) (sb : StoreBlock) (argv : List (Option Bytes)) : Resp :=
  match argv with
  | [cmd] =>
      if upper (goString cmd) = pingName then .bulk (some [80, 79, 78, 71]) else .status okText
  | [cmd, arg] =>
      if upper (goString cmd) = getName then .bulk ((sb (goString arg)).getD none)
      else if upper (goString cmd) = pingName then .bulk arg
      else .status okText
  | _ => .status okText

/-- The store as an object: a call is a request, it changes the store at once, and what it
returns is the value of its reply. -/
def storeStep (upper : Bytes → Bytes) (sb : StoreBlock) (argv : List (Option Bytes)) :
    StoreBlock × Resp :=
  (storeAfter upper sb argv, resultOf upper sb argv)

section

variable {lim : Nat} {upper : Bytes → Bytes} {sb : StoreBlock} {argv : List (Option Bytes)}

theorem okReply_eq : okReply = (Resp.status okText).encode := rfl

theorem replyTo_eq (upper : Bytes → Bytes) (sb : StoreBlock) (argv : List (Option Bytes)) :
    replyTo upper sb argv = (resultOf upper sb argv).encode := by
  rcases argv with _ | ⟨cmd, _ | ⟨arg, _ | ⟨c, argv⟩⟩⟩
  · rfl
  · simp only [replyTo, resultOf]
    split_ifs <;> rfl
  · simp only [replyTo, resultOf]
    split_ifs
    · exact wrapBulk_eq _
    · exact wrapBulk_eq _
    · rfl
  · rfl

theorem okText_sendable (lim : Nat) : (Resp.status okText).Sendable lim := by
  change ¬crlf <:+: okText
  decide

theorem resultOf_sendable (hfits : ArgsFit lim argv)
    (hsb : ∀ key p, sb key = some (some p) → p.length < 2 ^ 62) :
    (resultOf upper sb argv).Sendable lim := by
  have hok := okText_sendable lim
  rcases argv with _ | ⟨cmd, _ | ⟨arg, _ | ⟨c, argv⟩⟩⟩
  · exact hok
  · simp only [resultOf]
    split_ifs
    · rw [Resp.Sendable]
      decide
    · exact hok
  · simp only [resultOf]
    split_ifs
    · cases hval : sb (goString arg) with
      | none => trivial
      | some value =>
          cases value with
          | none => trivial
          | some p => exact hsb _ p hval
    · cases arg with
      | none => trivial
      | some p => exact hfits.payloads p (by simp)
    · exact hok
  · exact hok

end

/-! ## What a client waits for -/

/-- The calls in the order of their effects. -/
abbrev Effects := List (Effect (Nat × Nat) (List (Option Bytes)) Resp)

/-- The parser has read `sent` of the reply, and `replies` is what is left of it;
as long as the request is on its way there is nothing of either. -/
def AwaitsReply (lim : Nat) (lin : Effects) (waiting : Option (List (Option Bytes) × Bytes))
    (replies : Bytes) (id : Nat × Nat) (sent : Bytes) (p : Parser) : Prop :=
  (parser lim).Runs newParser sent p
    ∧ ((waiting.isSome ∧ replies = [] ∧ sent = [])
      ∨ (waiting = none ∧ replies ≠ [] ∧ ∃ e ∈ lin, e.id = id ∧ e.result.Sendable lim
        ∧ sent ++ replies = e.result.encode))

def ClientOk (lim : Nat) (lin : Effects) (c : QueryAt)
    (waiting : Option (List (Option Bytes) × Bytes)) (replies : Bytes) (id : Nat × Nat) : Prop :=
  match c with
  | .new | .idle => waiting = none ∧ replies = []
  | .dialing => AwaitsReply lim lin waiting replies id [] newParser
  | .reading p => ∃ sent, AwaitsReply lim lin waiting replies id sent p
  | .failed => True

section

variable {lim : Nat} {lin lin' : Effects} {waiting : Option (List (Option Bytes) × Bytes)}
  {replies buf rest sent : Bytes} {id : Nat × Nat} {p : Parser} {c : QueryAt}

theorem AwaitsReply.mono (h : AwaitsReply lim lin waiting replies id sent p)
    (hsub : ∀ e ∈ lin, e ∈ lin') : AwaitsReply lim lin' waiting replies id sent p := by
  refine ⟨h.1, h.2.imp_right ?_⟩
  rintro ⟨hw, hne, e, he, h⟩
  exact ⟨hw, hne, e, hsub e he, h⟩

theorem ClientOk.mono (h : ClientOk lim lin c waiting replies id) (hsub : ∀ e ∈ lin, e ∈ lin') :
    ClientOk lim lin' c waiting replies id := by
  cases c with
  | new | idle | failed => exact h
  | dialing => exact AwaitsReply.mono h hsub
  | reading p =>
      obtain ⟨sent, h⟩ := h
      exact ⟨sent, h.mono hsub⟩

/-- Where something of the reply has come, the request has been served, and what is there is
the rest of its reply. -/
theorem AwaitsReply.replied (h : AwaitsReply lim lin waiting replies id sent p)
    (hne : replies ≠ []) :
    waiting = none ∧ ∃ e ∈ lin, e.id = id ∧ e.result.Sendable lim
      ∧ sent ++ replies = e.result.encode := by
  rcases h.2 with ⟨-, hnil, -⟩ | ⟨hw, -, h⟩
  · exact absurd hnil hne
  · exact ⟨hw, h⟩

/-- Some bytes of the reply reach the parser of `Query`: as long as more is to come it has
no command, and with the last of them it has the one that the server has answered. -/
theorem AwaitsReply.read (h : AwaitsReply lim lin waiting (buf ++ rest) id sent p)
    (hbuf : buf ≠ []) :
    waiting = none ∧ ∃ e ∈ lin, e.id = id ∧ ∃ q, p.write lim buf = .ok (q, buf.length)
      ∧ (rest ≠ [] → q.getCommand = none ∧ AwaitsReply lim lin waiting rest id (sent ++ buf) q)
      ∧ (rest = [] → ∃ rc, q.getCommand = some rc ∧ Denotes q.commands rc e.result) := by
  obtain ⟨hw, e, he, hid, hsend, hsent⟩ := h.replied (by simp [hbuf])
  have henc := Resp.encode_encodes hsend
  obtain ⟨ps, hall, hps⟩ := (parser_sim lim).runs holds_newParser (henc.reads [] hsend.fits).1
  rw [← hsent] at hall
  obtain ⟨p', hp', hleft⟩ := hall.split
  rw [hp'.det h.1] at hleft
  obtain ⟨q, hq, hrest⟩ := hleft.split
  refine ⟨hw, e, he, hid, q, ?_, fun hne => ?_, fun hnil => ?_⟩
  · rw [Parser.write_eq_feed]
    exact hq.feed
  · refine ⟨getCommand_eq_none.mpr (hrest.not_ended hne), h.1.append hq,
      .inr ⟨hw, hne, e, he, hid, hsend, ?_⟩⟩
    rw [List.append_assoc, hsent]
  · subst hnil
    cases hrest
    exact ⟨_, hps.getCommand_done, hps.2⟩

theorem encode_ne_nil {v : Resp} (hv : v.Sendable lim) : v.encode ≠ [] := by
  cases v with
  | unknown t => exact absurd hv (by simp [Resp.Sendable])
  | bulk p => cases p <;> simp [Resp.encode]
  | status | error | int | array => simp [Resp.encode]

/-- Of two replies that can be sent none begins with the other, so a client that has read
one to its end has not read a part of another. -/
theorem encode_prefix {v w : Resp} (hv : v.Sendable lim) (hw : w.Sendable lim)
    (h : v.encode ++ rest = w.encode) : v = w ∧ rest = [] := by
  have hread := ((Resp.encode_encodes hv).reads [] hv.fits).1
  have hread' := ((Resp.encode_encodes hw).reads [] hw.fits).1
  rw [← h] at hread'
  obtain ⟨z, hz, hrest⟩ := hread'.split
  obtain rfl := hz.det hread
  by_cases hnil : rest = []
  · subst hnil
    cases hrest
    exact ⟨rfl, rfl⟩
  · cases hrest.not_ended hnil

end

/-! ## The invariant -/

structure NetInv (lim : Nat) (upper : Bytes → Bytes) (s : RedisNet) (lin : Effects) : Prop where
  served : Served lim upper s.server
  clients : ∀ i, ClientOk lim lin (s.clients i) (s.server.waiting i) (s.replies i) (i, s.op i)
  pending : ∀ i argv left, s.server.waiting i = some (argv, left) →
    .call (i, s.op i) argv ∈ s.hist ∧ ∀ e ∈ lin, e.id ≠ (i, s.op i)
  ids : ∀ i k argv, .call (i, k) argv ∈ s.hist → k ≤ s.op i
  dials : ∀ i, s.clients i = .dialing → ∃ db, .call (i, s.op i) [some selectName, some db] ∈ s.hist
  linearizes : Linearizes (storeStep upper) newStoreBlock s.hist lin
  store : s.server.store = stateAfter (storeStep upper) newStoreBlock lin

section

variable {lim : Nat} {upper : Bytes → Bytes} {s : RedisNet} {lin : Effects} {i : Nat}

theorem netInv_start (lim : Nat) (upper : Bytes → Bytes) : NetInv lim upper .start [] where
  served := .start
  clients := fun _ => ⟨rfl, rfl⟩
  pending := by rintro _ _ _ ⟨⟩
  ids := by rintro _ _ _ ⟨⟩
  dials := by rintro _ ⟨⟩
  linearizes := .nil _ _
  store := rfl

theorem NetInv.asks (h : NetInv lim upper s lin) (hi : s.server.waiting i = none)
    (hreplies : s.replies i = []) {argv : List (Option Bytes)} {bs : Bytes}
    (hfits : ArgsFit lim argv) (hbs : wrapMulitBulk argv.length argv = .ok bs) {c : QueryAt}
    (hc : (c = .dialing ∧ ∃ db, argv = [some selectName, some db]) ∨ c = .reading newParser) :
    NetInv lim upper (s.asks i argv bs c) lin := by
  have hfresh : ∀ a, .call (i, s.op i + 1) a ∉ s.hist := fun a ha =>
    Nat.not_succ_le_self _ (h.ids i _ a ha)
  refine ⟨h.served.request hi hfits hbs, fun j => ?_, fun j argv' left hj => ?_, fun j k a hk => ?_,
    fun j hj => ?_, h.linearizes.call hfresh argv, h.store⟩
  · by_cases hj : j = i
    · subst hj
      have hwait : AwaitsReply lim lin (some (argv, bs)) [] (j, s.op j + 1) [] newParser :=
        ⟨.nil, .inl ⟨rfl, rfl, rfl⟩⟩
      rcases hc with ⟨rfl, -⟩ | rfl
      · simpa [RedisNet.asks, hreplies, ClientOk] using hwait
      · simpa [RedisNet.asks, hreplies, ClientOk] using Exists.intro [] hwait
    · simpa [RedisNet.asks, hj] using h.clients j
  · by_cases hj' : j = i
    · subst hj'
      have heq : argv = argv' := by
        have hj2 : some (argv, bs) = some (argv', left) := by simpa [RedisNet.asks] using hj
        exact (Prod.mk.inj (Option.some.inj hj2)).1
      subst heq
      refine ⟨by simp [RedisNet.asks], fun e he => ?_⟩
      have hid : e.id ≠ (j, s.op j + 1) := by
        rintro hid
        have hcall := h.linearizes.called e he
        rw [hid] at hcall
        exact hfresh _ hcall
      simpa [RedisNet.asks] using hid
    · have hold : s.server.waiting j = some (argv', left) := by simpa [RedisNet.asks, hj'] using hj
      obtain ⟨hcall, hnew⟩ := h.pending j argv' left hold
      refine ⟨?_, ?_⟩
      · simp [RedisNet.asks, hj', hcall]
      · simpa [RedisNet.asks, hj'] using hnew
  · have hmem : .call (j, k) a ∈ s.hist ++ [.call (i, s.op i + 1) argv] := hk
    rcases List.mem_append.mp hmem with hk' | hk'
    · have hle := h.ids j k a hk'
      by_cases hj : j = i
      · subst hj
        simpa [RedisNet.asks] using Nat.le_succ_of_le hle
      · simpa [RedisNet.asks, hj] using hle
    · cases List.mem_singleton.mp hk'
      simp [RedisNet.asks]
  · by_cases hj' : j = i
    · subst hj'
      rcases hc with ⟨-, db, rfl⟩ | rfl
      · exact ⟨db, by simp [RedisNet.asks]⟩
      · simp [RedisNet.asks] at hj
    · have hold : s.clients j = .dialing := by simpa [RedisNet.asks, hj'] using hj
      obtain ⟨db, hdb⟩ := h.dials j hold
      exact ⟨db, by simp [RedisNet.asks, hj', hdb]⟩

/-- A piece of a request that is not the last one: the server has still not answered, and
nothing takes effect. -/
theorem NetInv.deliver_more (h : NetInv lim upper s lin) {argv : List (Option Bytes)}
    {piece rest : Bytes} {store : StoreBlock} {state : ConnState} {reply : ProtocolReply}
    (hi : s.server.waiting i = some (argv, piece ++ rest)) (hrest : rest ≠ [])
    (hrun : handleBytes lim upper s.server.store (s.server.conns i) piece
      = .ok (store, state, reply)) :
    NetInv lim upper (s.answered i argv rest store state reply) lin := by
  have hserved := h.served.deliver hi hrun
  obtain ⟨state', hmore, -⟩ := ((served_inv h.served).busy i argv _ hi).handleBytes_more
    s.server.store upper hrest
  rw [hmore] at hrun
  cases hrun
  have hmoves : ∀ sent p, AwaitsReply lim lin (some (argv, piece ++ rest)) (s.replies i) (i, s.op i)
      sent p → AwaitsReply lim lin (some (argv, rest)) (s.replies i ++ []) (i, s.op i) sent p := by
    rintro sent p ⟨hruns, hwait | ⟨hw, -⟩⟩
    · exact ⟨hruns, .inl ⟨rfl, by rw [hwait.2.1, List.append_nil], hwait.2.2⟩⟩
    · cases hw
  refine ⟨hserved, fun j => ?_, fun j argv' left hj => ?_, h.ids, h.dials, h.linearizes, h.store⟩
  · have hc := h.clients j
    by_cases hj : j = i
    · subst hj
      rw [hi] at hc
      cases hclient : s.clients j with
      | new | idle =>
          rw [hclient] at hc
          cases hc.1
      | dialing =>
          rw [hclient] at hc
          have hwait := hmoves _ _ hc
          simp only [RedisNet.answered, RedisConns.delivered, hclient, Function.update_self]
          exact hwait
      | reading p =>
          rw [hclient] at hc
          obtain ⟨sent, hc⟩ := hc
          have hwait := hmoves _ _ hc
          simp only [RedisNet.answered, RedisConns.delivered, hclient, Function.update_self]
          exact ⟨sent, hwait⟩
      | failed =>
          rw [RedisNet.answered, hclient]
          exact trivial
    · simpa [RedisNet.answered, RedisConns.delivered, hj] using hc
  · by_cases hj' : j = i
    · subst hj'
      have heq : some (argv, rest) = some (argv', left) := by
        simpa [RedisNet.answered, RedisConns.delivered] using hj
      cases heq
      exact h.pending j argv _ hi
    · refine h.pending j argv' left ?_
      simpa [RedisNet.answered, RedisConns.delivered, hj'] using hj

/-- The last piece of a request: the command takes effect now, after all the effects so far,
and the reply is on its way. -/
theorem NetInv.deliver_last (h : NetInv lim upper s lin) {argv : List (Option Bytes)}
    {piece : Bytes} {store : StoreBlock} {state : ConnState} {reply : ProtocolReply}
    (hi : s.server.waiting i = some (argv, piece ++ []))
    (hrun : handleBytes lim upper s.server.store (s.server.conns i) piece
      = .ok (store, state, reply)) :
    NetInv lim upper (s.answered i argv [] store state reply)
      (lin ++ [⟨(i, s.op i), argv, resultOf upper s.server.store argv⟩]) := by
  have hserved := h.served.deliver hi hrun
  have hinv := served_inv h.served
  have hmid := hinv.busy i argv _ hi
  have hsend : (resultOf upper s.server.store argv).Sendable lim :=
    resultOf_sendable hmid.fits hinv.sizes
  obtain ⟨hcall, hnew⟩ := h.pending i argv _ hi
  rw [List.append_nil] at hmid
  rw [hmid.handleBytes_last s.server.store] at hrun
  cases hrun
  have hsub : ∀ e ∈ lin, e ∈ lin ++ [⟨(i, s.op i), argv, resultOf upper s.server.store argv⟩] :=
    fun e he => List.mem_append_left _ he
  have hmoves : ∀ sent p, AwaitsReply lim lin (some (argv, piece ++ [])) (s.replies i) (i, s.op i)
      sent p → AwaitsReply lim (lin ++ [⟨(i, s.op i), argv, resultOf upper s.server.store argv⟩])
        none (s.replies i ++ replyTo upper s.server.store argv) (i, s.op i) sent p := by
    rintro sent p ⟨hruns, ⟨-, hnil, rfl⟩ | ⟨hw, -⟩⟩
    · rw [hnil, List.nil_append, replyTo_eq]
      exact ⟨hruns,
        .inr ⟨rfl, encode_ne_nil hsend, _, List.mem_append_right _ (.head _), rfl, hsend,
        rfl⟩⟩
    · cases hw
  refine ⟨hserved, fun j => ?_, fun j argv' left hj => ?_, h.ids, h.dials, ?_, ?_⟩
  · have hc := h.clients j
    by_cases hj : j = i
    · subst hj
      rw [hi] at hc
      cases hclient : s.clients j with
      | new | idle =>
          rw [hclient] at hc
          cases hc.1
      | dialing =>
          rw [hclient] at hc
          have hwait := hmoves _ _ hc
          simp only [RedisNet.answered, RedisConns.delivered, hclient, Function.update_self]
          exact hwait
      | reading p =>
          rw [hclient] at hc
          obtain ⟨sent, hc⟩ := hc
          have hwait := hmoves _ _ hc
          simp only [RedisNet.answered, RedisConns.delivered, hclient, Function.update_self]
          exact ⟨sent, hwait⟩
      | failed =>
          rw [RedisNet.answered, hclient]
          exact trivial
    · have hmono := hc.mono hsub
      simpa [RedisNet.answered, RedisConns.delivered, hj] using hmono
  · by_cases hj' : j = i
    · subst hj'
      simp [RedisNet.answered, RedisConns.delivered] at hj
    · have hold : s.server.waiting j = some (argv', left) := by
        simpa [RedisNet.answered, RedisConns.delivered, hj'] using hj
      obtain ⟨hcall', hnew'⟩ := h.pending j argv' left hold
      refine ⟨hcall', fun e he => ?_⟩
      rcases List.mem_append.mp he with he | he
      · exact hnew' e he
      · rw [List.mem_singleton.mp he]
        exact fun heq => hj' (Prod.mk.inj heq).1.symm
  · refine h.linearizes.effect hcall hnew ?_
    rw [← h.store]
    rfl
  · rw [stateAfter_append, ← h.store]
    rfl

theorem NetInv.deliver (h : NetInv lim upper s lin) {argv : List (Option Bytes)}
    {piece rest : Bytes} {store : StoreBlock} {state : ConnState} {reply : ProtocolReply}
    (hi : s.server.waiting i = some (argv, piece ++ rest))
    (hrun : handleBytes lim upper s.server.store (s.server.conns i) piece
      = .ok (store, state, reply)) :
    ∃ lin', NetInv lim upper (s.answered i argv rest store state reply) lin' := by
  by_cases hrest : rest = []
  · subst hrest
    exact ⟨_, h.deliver_last hi hrun⟩
  · exact ⟨_, h.deliver_more hi hrest hrun⟩

/-- Client `i` takes bytes that are on their way to it, and nobody else is concerned. -/
theorem NetInv.takes (h : NetInv lim upper s lin) {rest : Bytes} {c : QueryAt} (hne : c ≠ .dialing)
    (hc : ClientOk lim lin c (s.server.waiting i) rest (i, s.op i)) :
    NetInv lim upper (s.takes i rest c) lin := by
  refine ⟨h.served, fun j => ?_, h.pending, h.ids, fun j hj => ?_, h.linearizes, h.store⟩
  · by_cases hj : j = i
    · subst hj
      simpa [RedisNet.takes, RedisNet.setClient] using hc
    · simpa [RedisNet.takes, RedisNet.setClient, hj] using h.clients j
  · by_cases hj' : j = i
    · subst hj'
      simp [RedisNet.takes, RedisNet.setClient, hne] at hj
    · exact h.dials j (by simpa [RedisNet.takes, RedisNet.setClient, hj'] using hj)

theorem NetInv.fails (h : NetInv lim upper s lin) (i : Nat) :
    NetInv lim upper (s.setClient i .failed) lin := by
  refine ⟨h.served, fun j => ?_, h.pending, h.ids, fun j hj => ?_, h.linearizes, h.store⟩
  · by_cases hj : j = i
    · subst hj
      simp [RedisNet.setClient, ClientOk]
    · simpa [RedisNet.setClient, hj] using h.clients j
  · by_cases hj' : j = i
    · subst hj'
      simp [RedisNet.setClient] at hj
    · exact h.dials j (by simpa [RedisNet.setClient, hj'] using hj)

theorem NetInv.returns (h : NetInv lim upper s lin)
    {e : Effect (Nat × Nat) (List (Option Bytes)) Resp}
    (he : e ∈ lin) (hid : e.id = (i, s.op i)) : NetInv lim upper (s.returns i e.result) lin := by
  have hret := h.linearizes.ret he
  rw [hid] at hret
  refine ⟨h.served, h.clients, fun j argv left hj => ?_, fun j k argv hk => ?_, fun j hj => ?_,
    hret,
    h.store⟩
  · obtain ⟨hcall, hnew⟩ := h.pending j argv left hj
    exact ⟨List.mem_append_left _ hcall, hnew⟩
  · rcases List.mem_append.mp hk with hk | hk
    · exact h.ids j k argv hk
    · cases List.mem_singleton.mp hk
  · obtain ⟨db, hdb⟩ := h.dials j hj
    exact ⟨db, List.mem_append_left _ hdb⟩

theorem RedisNet.Reach.inv (h : RedisNet.Reach lim upper s) : ∃ lin, NetInv lim upper s lin := by
  induction h with
  | start => exact ⟨[], netInv_start lim upper⟩
  | @dial s i db bs _ hi hfits hbs ih =>
      obtain ⟨lin, h⟩ := ih
      have hc := h.clients i
      rw [hi] at hc
      exact ⟨lin, h.asks hc.1 hc.2 hfits hbs (.inl ⟨rfl, db, rfl⟩)⟩
  | @query s i argv bs _ hi hfits hbs ih =>
      obtain ⟨lin, h⟩ := ih
      have hc := h.clients i
      rw [hi] at hc
      exact ⟨lin, h.asks hc.1 hc.2 hfits hbs (.inr rfl)⟩
  | deliver _ hi hrun ih =>
      obtain ⟨lin, h⟩ := ih
      exact h.deliver hi hrun
  | @dialed s i buf rest _ hi hbytes hbuf _ hok ih =>
      obtain ⟨lin, h⟩ := ih
      have hc := h.clients i
      rw [hi, hbytes] at hc
      obtain ⟨hw, e, he, hid, hsend, hsent⟩ := AwaitsReply.replied hc (by simp [hbuf])
      rw [hok, okReply_eq, List.nil_append] at hsent
      obtain ⟨hv, rfl⟩ := encode_prefix (okText_sendable lim) hsend hsent
      rw [hv]
      exact ⟨lin, (h.takes (c := .idle) QueryAt.noConfusion ⟨hw, rfl⟩).returns he hid⟩
  | @refused s i buf rest _ hi hbytes _ _ _ ih =>
      obtain ⟨lin, h⟩ := ih
      exact ⟨lin, h.takes (c := .failed) QueryAt.noConfusion trivial⟩
  | @more s i n p p' buf rest _ hi hbytes hbuf _ hwrite hnone ih =>
      obtain ⟨lin, h⟩ := ih
      have hc := h.clients i
      rw [hi, hbytes] at hc
      obtain ⟨sent, hc⟩ := hc
      obtain ⟨-, e, he, hid, q, hq, hgo, hend⟩ := hc.read hbuf
      rw [hq] at hwrite
      cases hwrite
      by_cases hrest : rest = []
      · obtain ⟨rc, hrc, -⟩ := hend hrest
        rw [hnone] at hrc
        cases hrc
      · exact ⟨lin, h.takes (c := .reading _) QueryAt.noConfusion ⟨_, (hgo hrest).2⟩⟩
  | @last s i n p p' buf rest rc v _ hi hbytes hbuf _ hwrite hget hv ih =>
      obtain ⟨lin, h⟩ := ih
      have hc := h.clients i
      rw [hi, hbytes] at hc
      obtain ⟨sent, hc⟩ := hc
      obtain ⟨hw, e, he, hid, q, hq, hgo, hend⟩ := hc.read hbuf
      rw [hq] at hwrite
      cases hwrite
      by_cases hrest : rest = []
      · obtain ⟨rc', hrc, hden⟩ := hend hrest
        rw [hget, Option.some.injEq] at hrc
        subst hrc hrest
        rw [hv.unique hden]
        exact ⟨lin, (h.takes (c := .idle) QueryAt.noConfusion ⟨hw, rfl⟩).returns he hid⟩
      · have hnone := (hgo hrest).1
        rw [hget] at hnone
        cases hnone
  | fails _ _ ih =>
      obtain ⟨lin, h⟩ := ih
      exact ⟨lin, h.fails _⟩

/-! ## Whole calls -/

theorem write_encode {v : Resp} (hv : v.Sendable lim) : ∃ q rc,
    newParser.write lim v.encode = .ok (q, v.encode.length) ∧ q.getCommand = some rc
      ∧ Denotes q.commands rc v := by
  obtain ⟨q, hruns, hq⟩ := (parser_sim lim).runs holds_newParser
    ((Resp.encode_encodes hv).reads [] hv.fits).1
  refine ⟨q, _, ?_, hq.getCommand_done, hq.2⟩
  rw [Parser.write_eq_feed]
  exact hruns.feed

/-- The request of client `i` can reach the server in one piece. -/
theorem NetInv.deliver_all (h : NetInv lim upper s lin) (hs : RedisNet.Reach lim upper s)
    {argv : List (Option Bytes)} {bs : Bytes} (hi : s.server.waiting i = some (argv, bs)) :
    RedisNet.Reach lim upper
      (s.answered i argv [] (storeAfter upper s.server.store argv) newConnState
      (.client (replyTo upper s.server.store argv))) := by
  have hmid := (served_inv h.served).busy i argv bs hi
  refine hs.deliver ?_ (hmid.handleBytes_last s.server.store)
  rw [hi, List.append_nil]

/-- A whole `Query`, with a reply that fits into the buffer, can be made. -/
theorem RedisNet.Reach.ask (h : RedisNet.Reach lim upper s) (hi : s.clients i = .idle)
    (argv : List (Option Bytes)) (hfits : ArgsFit lim argv)
    (hlen : (resultOf upper s.server.store argv).encode.length ≤ queryBuf) :
    ∃ s', RedisNet.Reach lim upper s'
      ∧ s'.hist = s.hist ++ [.call (i, s.op i + 1) argv,
        .ret (i, s.op i + 1) (resultOf upper s.server.store argv)]
      ∧ s'.server.store = storeAfter upper s.server.store argv ∧ s'.clients = s.clients
      ∧ s'.op = Function.update s.op i (s.op i + 1) := by
  obtain ⟨lin, hinv⟩ := h.inv
  have hc := hinv.clients i
  rw [hi] at hc
  obtain ⟨hw, hnil⟩ := hc
  have hsend : (resultOf upper s.server.store argv).Sendable lim :=
    resultOf_sendable hfits (served_inv hinv.served).sizes
  have hq := h.query hi hfits (wrapMulitBulk_eq argv)
  obtain ⟨lin', hinv'⟩ := hq.inv
  have hwait : (s.asks i argv (bulks argv).encode (.reading newParser)).server.waiting i
      = some (argv, (bulks argv).encode) := by simp [RedisNet.asks]
  have hd := hinv'.deliver_all hq hwait
  obtain ⟨q, rc, hwrite, hget, hden⟩ := write_encode hsend
  have hbytes : s.replies i ++ replyTo upper s.server.store argv
      = (resultOf upper s.server.store argv).encode ++ [] := by
    rw [hnil, List.nil_append, replyTo_eq, List.append_nil]
  have hl := hd.last (i := i) (p := newParser) (by simp [RedisNet.answered, RedisNet.asks])
    (by simpa only [RedisNet.answered, RedisNet.asks, ProtocolReply.bytes, Function.update_self]
      using hbytes) (encode_ne_nil hsend) hlen hwrite hget hden
  refine ⟨_, hl, ?_, rfl, ?_, rfl⟩
  · simp [RedisNet.returns, RedisNet.takes, RedisNet.setClient, RedisNet.answered, RedisNet.asks]
  · simp [RedisNet.returns, RedisNet.takes, RedisNet.setClient, RedisNet.answered, RedisNet.asks,
      ← hi]

/-- A whole `NewConn` can be made. -/
theorem RedisNet.Reach.connect (h : RedisNet.Reach lim upper s) (hi : s.clients i = .new)
    (hupper : upper selectName = selectName) {db : Bytes}
    (hfits : ArgsFit lim [some selectName, some db]) :
    ∃ s', RedisNet.Reach lim upper s'
      ∧ s'.hist = s.hist ++ [.call (i, s.op i + 1) [some selectName, some db],
        .ret (i, s.op i + 1) (.status okText)]
      ∧ s'.server.store = s.server.store ∧ s'.clients = Function.update s.clients i .idle
      ∧ s'.op = Function.update s.op i (s.op i + 1) := by
  obtain ⟨lin, hinv⟩ := h.inv
  have hc := hinv.clients i
  rw [hi] at hc
  obtain ⟨hw, hnil⟩ := hc
  have hq := h.dial hi hfits (wrapMulitBulk_eq [some selectName, some db])
  obtain ⟨lin', hinv'⟩ := hq.inv
  have hwait : (s.asks i [some selectName, some db] (bulks [some selectName, some db]).encode
      .dialing).server.waiting i
        = some ([some selectName, some db], (bulks [some selectName, some db]).encode) := by
    simp [RedisNet.asks]
  have hd := hinv'.deliver_all hq hwait
  have hget : upper (goString (some selectName)) ≠ getName := by
    rw [goString, Option.getD_some, hupper]
    decide
  have hping : upper (goString (some selectName)) ≠ pingName := by
    rw [goString, Option.getD_some, hupper]
    decide
  have hreply : replyTo upper s.server.store [some selectName, some db] = okReply := by
    rw [replyTo, if_neg hget, if_neg hping]
  have hbytes : s.replies i ++ replyTo upper s.server.store [some selectName, some db]
      = okReply ++ [] := by
    rw [hnil, hreply]
    rfl
  have hl := hd.dialed (i := i) (by simp [RedisNet.answered, RedisNet.asks])
    (by simpa only [RedisNet.answered, RedisNet.asks, ProtocolReply.bytes, Function.update_self]
      using hbytes) (by decide) (by decide) rfl
  refine ⟨_, hl, ?_, rfl, ?_, rfl⟩
  · simp [RedisNet.returns, RedisNet.takes, RedisNet.setClient, RedisNet.answered, RedisNet.asks]
  · simp [RedisNet.returns, RedisNet.takes, RedisNet.setClient, RedisNet.answered, RedisNet.asks]

/-! ## What the clients see -/

/-- Whatever the order in which pieces of requests and replies arrive: the calls that
`NewConn` and `Query` have made, and the replies that they have read, are those of one store
that serves one call at a time, at some moment between its request and its reply. -/
theorem net_linearizable (h : RedisNet.Reach lim upper s) :
    Linearizable (storeStep upper) newStoreBlock s.hist := by
  obtain ⟨lin, hinv⟩ := h.inv
  exact ⟨lin, hinv.linearizes⟩

/-- A SET on one connection, and then a GET of the same key on another. -/
theorem net_linearizable_two : ∃ s, RedisNet.Reach 8 id s
    ∧ .ret (1, 2) (.bulk (some [13, 10])) ∈ s.hist
      ∧ Linearizable (storeStep id) newStoreBlock s.hist := by
  have hdial : ArgsFit 8 [some selectName, some [48]] :=
    ⟨by simp, by simp, by simp, by simp [selectName]⟩
  have h0 : RedisNet.Reach 8 id .start := .start
  obtain ⟨s1, h1, -, hstore1, hcl1, hop1⟩ := h0.connect (i := 0) rfl rfl hdial
  obtain ⟨s2, h2, -, hstore2, hcl2, hop2⟩ := h1.connect (i := 1) (by rw [hcl1]; rfl) rfl hdial
  obtain ⟨s3, h3, -, hstore3, hcl3, hop3⟩ := h2.ask (i := 0) (by rw [hcl2, hcl1]; rfl)
    [some setName, some [107], some [13, 10]] ⟨by simp, by simp, by simp, by simp [setName]⟩
    (by rw [hstore2, hstore1]; decide)
  obtain ⟨s4, h4, hhist, -⟩ := h3.ask (i := 1) (by rw [hcl3, hcl2]; rfl)
    [some getName, some [107]] ⟨by simp, by simp, by simp, by simp [getName]⟩
    (by rw [hstore3, hstore2, hstore1]; decide)
  refine ⟨s4, h4, ?_, net_linearizable h4⟩
  rw [hhist, hop3, hop2, hop1, hstore3]
  exact List.mem_append_right _ (.tail _ (.head _))

/-- A connection that nobody uses has nothing on its way; and `Query` does not panic and
does not wait for what does not come: as long as there is nothing to read the server has not
got the whole request, and it gets a command as soon as it has read all there is. -/
theorem query_in_step (h : RedisNet.Reach lim upper s) :
    (∀ i, s.clients i = .idle → s.replies i = [] ∧ s.server.waiting i = none
        ∧ s.server.conns i = newConnState)
      ∧ ∀ i p, s.clients i = .reading p → (s.replies i = [] → (s.server.waiting i).isSome)
        ∧ ∀ buf rest, s.replies i = buf ++ rest → buf ≠ [] →
          ∃ q, p.write lim buf = .ok (q, buf.length) ∧ (q.getCommand = none ↔ rest ≠ [])
            ∧ ∀ rc, q.getCommand = some rc → ∃ v, Denotes q.commands rc v := by
  obtain ⟨lin, hinv⟩ := h.inv
  constructor
  · intro i hi
    have hc := hinv.clients i
    rw [hi] at hc
    exact ⟨hc.2, hc.1, (served_inv hinv.served).idle i hc.1⟩
  · intro i p hi
    have hc := hinv.clients i
    rw [hi] at hc
    obtain ⟨sent, hc⟩ := hc
    constructor
    · intro hnil
      rcases hc.2 with ⟨hw, -⟩ | ⟨-, hne, -⟩
      · exact hw
      · exact absurd hnil hne
    · intro buf rest hbytes hbuf
      rw [hbytes] at hc
      obtain ⟨-, e, -, -, q, hq, hgo, hend⟩ := hc.read hbuf
      by_cases hrest : rest = []
      · obtain ⟨rc, hrc, hv⟩ := hend hrest
        refine ⟨q, hq, iff_of_false (by simp [hrc]) (fun hne => hne hrest), fun rc' hrc' => ?_⟩
        rw [hrc, Option.some.injEq] at hrc'
        exact ⟨_, hrc' ▸ hv⟩
      · have hnone := (hgo hrest).1
        exact ⟨q, hq, iff_of_true hnone hrest, fun rc hrc => by
          rw [hnone] at hrc
          cases hrc⟩

/-- A PING of which nothing has been sent. -/
theorem query_in_step_ping : ∃ s p, RedisNet.Reach 8 id s ∧ s.clients 0 = .reading p
    ∧ (s.server.waiting 0).isSome := by
  have hdial : ArgsFit 8 [some selectName, some [48]] :=
    ⟨by simp, by simp, by simp, by simp [selectName]⟩
  have h0 : RedisNet.Reach 8 id .start := .start
  obtain ⟨s1, h1, -, -, hcl1, -⟩ := h0.connect (i := 0) rfl rfl hdial
  have hidle : s1.clients 0 = .idle := by
    rw [hcl1]
    rfl
  have h2 := h1.query hidle ⟨by simp, by simp, by simp, by simp [pingName]⟩
    (wrapMulitBulk_eq [some pingName])
  exact ⟨_, _, h2, rfl, ((query_in_step h2).2 0 newParser rfl).1 ((query_in_step h1).1 0 hidle).1⟩

/-! ## `NewConn` -/

/-- `NewConn` keeps the connection exactly if its one `Read` gets the whole reply: it
compares what that has got with `+OK`, and a part of it is not equal. -/
theorem dial_iff (hupper : upper selectName = selectName) (h : RedisNet.Reach lim upper s)
    {buf rest : Bytes} (hi : s.clients i = .dialing) (hbytes : s.replies i = buf ++ rest)
    (hbuf : buf ≠ []) : buf = okReply ↔ rest = [] := by
  obtain ⟨lin, hinv⟩ := h.inv
  have hc := hinv.clients i
  rw [hi, hbytes] at hc
  obtain ⟨-, e, he, hid, -, hsent⟩ := AwaitsReply.replied hc (by simp [hbuf])
  obtain ⟨db, hcall⟩ := hinv.dials i hi
  have harg : e.arg = [some selectName, some db] :=
    hinv.linearizes.unique _ _ _ (hid ▸ hinv.linearizes.called e he) hcall
  obtain ⟨sb, hresult⟩ := hinv.linearizes.legal.mem he
  have hok : (storeStep upper sb [some selectName, some db]).2 = .status okText := by
    have hget : upper (goString (some selectName)) ≠ getName := by
      rw [goString, Option.getD_some, hupper]
      decide
    have hping : upper (goString (some selectName)) ≠ pingName := by
      rw [goString, Option.getD_some, hupper]
      decide
    rw [storeStep, resultOf, if_neg hget, if_neg hping]
  rw [← hresult, harg, hok, List.nil_append, ← okReply_eq] at hsent
  constructor
  · rintro rfl
    simpa using hsent
  · rintro rfl
    simpa using hsent

/-- The reply is there, and `Read` returns its first byte: `NewConn` does not take it for
the reply. -/
theorem dial_iff_part : ∃ s, RedisNet.Reach 8 id s ∧ s.clients 0 = .dialing
    ∧ s.replies 0 = okReply ∧ ([43] = okReply ↔ okReply.tail = []) := by
  have hdial : ArgsFit 8 [some selectName, some [48]] :=
    ⟨by simp, by simp, by simp, by simp [selectName]⟩
  have h0 : RedisNet.Reach 8 id .start := .start
  have h1 := h0.dial (i := 0) rfl hdial (wrapMulitBulk_eq [some selectName, some [48]])
  obtain ⟨lin, hinv⟩ := h1.inv
  have h2 := hinv.deliver_all (i := 0) h1 rfl
  exact ⟨_, h2, rfl, rfl, dial_iff (i := 0) rfl h2 rfl rfl (by decide)⟩

end

end Artorias
