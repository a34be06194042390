import Artorias.RedisHandle

/-!
# Clients on one store

Any number of connections share the store, and their calls of `HandleBytes`
interleave. Each client sends one request at a time, in any pieces, and the
next one after the reply. `served_replies`: the reply comes on the last piece
and on no other, and a GET is answered with what the last SET of its key, over
all connections, has set.
-/

namespace Artorias

/-! ## What a request does -/

/-- The key and the value of a SET. -/
def setOf (upper : Bytes → Bytes) (argv : List (Option Bytes)) : Option (Bytes × Option Bytes) :=
  match argv with
  | [cmd, key, value] =>
      if upper (goString cmd) = setName then some (goString key, value) else none
  | _ => none

def storeAfter (upper : Bytes → Bytes) (sb : StoreBlock) (argv : List (Option Bytes)) :
    StoreBlock :=
  match setOf upper argv with
  | some (key, value) => sb.set key value
  | none => sb

def replyTo (upper : Bytes → Bytes) (sb : StoreBlock) (argv : List (Option Bytes)) : Bytes :=
  match argv with
  | [cmd] => if upper (goString cmd) = pingName then pongReply else okReply
  | [cmd, arg] =>
      if upper (goString cmd) = getName then wrapBulk ((sb (goString arg)).getD none)
      else if upper (goString cmd) = pingName then wrapBulk arg
      else okReply
  | _ => okReply

theorem denotes_bulk {mem : Ref → RedisCommand} {r : Ref} {p : Option Bytes}
    (h : Denotes mem r (.bulk p)) : (mem r).value.bytes = p := by
  rw [Denotes] at h
  rw [h]

theorem denotesAll_length {mem : Ref → RedisCommand} :
    ∀ {vs : List Resp} {rs : List Ref}, DenotesAll mem rs vs → rs.length = vs.length
  | [], _, h => by
      rw [h]
      rfl
  | _ :: _, _, ⟨_, _, hrs, _, hvs⟩ => by
      rw [hrs, List.length_cons, List.length_cons, denotesAll_length hvs]

section

variable {upper : Bytes → Bytes} {mem : Ref → RedisCommand} {sb : StoreBlock} {cmd : Ref}
  {argv : List (Option Bytes)}

/-- `processCommand` on the command that holds a list of arguments: its reply and the store
after it are functions of the arguments, whatever the memory looks like that the command is
in. -/
theorem processCommand_bulks (h : Denotes mem cmd (bulks argv)) :
    processCommand upper mem sb cmd = .ok (storeAfter upper sb argv, replyTo upper sb argv) := by
  obtain ⟨rs, hcmd, hrs⟩ := h
  rw [processCommand, hcmd]
  simp only [if_true]
  rcases argv with _ | ⟨a, _ | ⟨b, _ | ⟨c, _ | ⟨d, argv⟩⟩⟩⟩
  · have hnil : rs = [] := hrs
    rw [hnil]
    rfl
  · obtain ⟨r, rs', rfl, ha, hnil⟩ := hrs
    obtain rfl : rs' = [] := hnil
    simp only [List.length_cons, List.length_nil, Nat.lt_add_one, ↓reduceIte, goIndex_cons,
      Nat.reduceEqDiff, and_false, processSet, processPing, goBind_ok, denotes_bulk ha, storeAfter,
      setOf, replyTo, zero_add, gt_iff_lt]
    split_ifs <;> rfl
  · obtain ⟨r, rs', rfl, ha, q, rs'', rfl, hb, hnil⟩ := hrs
    obtain rfl : rs'' = [] := hnil
    simp only [List.length_cons, List.length_nil, zero_add, Nat.reduceAdd, gt_iff_lt,
      Nat.zero_lt_succ, ↓reduceIte, goIndex_cons, and_true, goIndex_cons_cons, goBind_ok,
      denotes_bulk hb, processSet, Nat.reduceEqDiff, and_false, processPing, Nat.succ_ne_self,
      denotes_bulk ha, storeAfter, setOf, replyTo]
    split_ifs with hget
    · cases sb (goString b) <;> rfl
    · rfl
    · rfl
  · obtain ⟨r, rs', rfl, ha, q, rs'', rfl, hb, t, rs₃, rfl, hc, hnil⟩ := hrs
    obtain rfl : rs₃ = [] := hnil
    have hget : goIndex [r, q, t] 2 = .ok t := rfl
    simp only [List.length_cons, List.length_nil, zero_add, Nat.reduceAdd, gt_iff_lt,
      Nat.zero_lt_succ, ↓reduceIte, goIndex_cons, Nat.succ_ne_self, and_false, processSet, and_true,
      goIndex_cons_cons, hget, goBind_ok, denotes_bulk hc, denotes_bulk hb, processPing,
      Nat.reduceEqDiff, ite_self, denotes_bulk ha, storeAfter, setOf, replyTo]
    split_ifs <;> rfl
  · have hlen := denotesAll_length hrs
    obtain ⟨r, rs', rfl, -⟩ := hrs
    simp only [List.length_cons, List.length_map] at hlen
    simp [goIndex_cons, processSet, processPing, storeAfter, setOf, replyTo, hlen]

end

/-! ## Clients and connections -/

/-- A request and its reply. -/
structure Exchange where
  conn : Nat
  argv : List (Option Bytes)
  reply : Bytes

/-- The server, what each client still has to send of which request, and the requests that
have been answered, in the order of the answers. -/
structure RedisConns where
  store : StoreBlock
  conns : Nat → ConnState
  waiting : Nat → Option (List (Option Bytes) × Bytes)
  log : List Exchange

def newRedisConns : RedisConns := ⟨newStoreBlock, fun _ => newConnState, fun _ => none, []⟩

/-- A call of `HandleBytes` has returned; a reply ends the client's request. -/
def RedisConns.delivered (s : RedisConns) (i : Nat) (argv : List (Option Bytes)) (rest : Bytes)
    (store : StoreBlock) (state : ConnState) : ProtocolReply → RedisConns
  | .noReply =>
      { s with
        store := store
        conns := Function.update s.conns i state
        waiting := Function.update s.waiting i (some (argv, rest)) }
  | .client replyBytes =>
      { store := store
        conns := Function.update s.conns i state
        waiting := Function.update s.waiting i none
        log := s.log ++ [⟨i, argv, replyBytes⟩] }

/-- A client that waits for no reply begins a request, or a piece of a request reaches the
server; in whatever order, and in whatever pieces. -/
inductive Served (lim : Nat) (upper : Bytes → Bytes) : RedisConns → Prop where
  | start : Served lim upper newRedisConns
  | request {s : RedisConns} {i : Nat} {argv : List (Option Bytes)} {bs : Bytes} :
      Served lim upper s → s.waiting i = none → ArgsFit lim argv →
      wrapMulitBulk argv.length argv = .ok bs →
      Served lim upper { s with waiting := Function.update s.waiting i (some (argv, bs)) }
  | deliver {s : RedisConns} {i : Nat} {argv : List (Option Bytes)} {piece rest : Bytes}
      {store : StoreBlock} {state : ConnState} {reply : ProtocolReply} :
      Served lim upper s → s.waiting i = some (argv, piece ++ rest) →
      handleBytes lim upper s.store (s.conns i) piece = .ok (store, state, reply) →
      Served lim upper (s.delivered i argv rest store state reply)

/-- The value that the last SET of the key has set. -/
def lastSet (upper : Bytes → Bytes) (key : Bytes) (log : List Exchange) : Option (Option Bytes) :=
  log.foldl (fun found e =>
    match setOf upper e.argv with
    | some (k, value) => if k = key then some value else found
    | none => found) none

/-- Every GET of the log got the value that the last SET before it has set, or
null. -/
def GetsAnswered (lim : Nat) (upper : Bytes → Bytes) (log : List Exchange) : Prop :=
  ∀ before e after cmd key, log = before ++ e :: after → e.argv = [cmd, key] →
    upper (goString cmd) = getName →
    ReadsBack lim e.reply (.bulk ((lastSet upper (goString key) before).getD none))

/-! ## The invariant -/

/-- The parser of a connection has read `sent` of a request, and `left` is to
come. -/
structure MidRequest (lim : Nat) (state : ConnState) (argv : List (Option Bytes)) (left : Bytes) :
    Prop where
  buf : state.buf = []
  fits : ArgsFit lim argv
  nonempty : left ≠ []
  sent : ∃ sent, sent ++ left = (bulks argv).encode ∧
    (parser lim).Runs newParser sent state.parser

structure ServedInv (lim : Nat) (upper : Bytes → Bytes) (s : RedisConns) : Prop where
  idle : ∀ i, s.waiting i = none → s.conns i = newConnState
  busy : ∀ i argv left, s.waiting i = some (argv, left) → MidRequest lim (s.conns i) argv left
  store : ∀ key, s.store key = lastSet upper key s.log
  sizes : ∀ key p, s.store key = some (some p) → p.length < 2 ^ 62
  gets : GetsAnswered lim upper s.log

section

variable {lim : Nat} {upper : Bytes → Bytes} {state : ConnState} {argv : List (Option Bytes)}
  {piece rest : Bytes} (sb : StoreBlock)

theorem midRequest_new (h : ArgsFit lim argv) :
    MidRequest lim newConnState argv (bulks argv).encode where
  buf := rfl
  fits := h
  nonempty := by simp [bulks, Resp.encode]
  sent := ⟨[], rfl, .nil⟩

/-- The rest of the request takes the parser to its end, with the arguments as its value. -/
theorem MidRequest.runs (h : MidRequest lim state argv (piece ++ rest)) :
    ∃ ps, (parser lim).Runs state.parser (piece ++ rest) ps ∧ Holds ps (.done (bulks argv)) := by
  obtain ⟨sent, hsent, hruns⟩ := h.sent
  have henc := Resp.encode_encodes h.fits.sendable
  obtain ⟨ps, hall, hps⟩ := (parser_sim lim).runs holds_newParser
    (henc.reads [] h.fits.sendable.fits).1
  rw [← hsent] at hall
  obtain ⟨q, hq, hrest⟩ := hall.split
  rw [hq.det hruns] at hrest
  exact ⟨ps, hrest, hps⟩

/-- A piece that is not the last one changes nothing but the parser, which then expects the
rest, and is not answered. -/
theorem MidRequest.handleBytes_more (upper : Bytes → Bytes)
    (h : MidRequest lim state argv (piece ++ rest)) (hrest : rest ≠ []) :
    ∃ state', handleBytes lim upper sb state piece = .ok (sb, state', .noReply) ∧
      MidRequest lim state' argv rest := by
  obtain ⟨ps, hruns, -⟩ := h.runs
  obtain ⟨q, hpiece, hmore⟩ := hruns.split
  have hend := hmore.not_ended hrest
  have hfeed : (parser lim).feed state.parser (state.buf ++ piece) = .ok (q, piece.length) := by
    rw [h.buf]
    exact hpiece.feed
  refine ⟨⟨[], q⟩, ?_, rfl, h.fits, hrest, ?_⟩
  · rw [handleBytes_eq sb hfeed, h.buf, List.nil_append, List.drop_length,
      handleCommand_none upper sb [] hend]
  · obtain ⟨sent, hsent, hold⟩ := h.sent
    exact ⟨sent ++ piece, by rw [← hsent, List.append_assoc], hold.append hpiece⟩

/-- With the last piece the command is run on the store as it is then, and the connection
begins anew. -/
theorem MidRequest.handleBytes_last (h : MidRequest lim state argv piece) :
    handleBytes lim upper sb state piece =
      .ok (storeAfter upper sb argv, newConnState, .client (replyTo upper sb argv)) := by
  rw [← List.append_nil piece] at h
  obtain ⟨ps, hruns, hps⟩ := h.runs
  rw [List.append_nil] at hruns
  have hfeed : (parser lim).feed state.parser (state.buf ++ piece) = .ok (ps, piece.length) := by
    rw [h.buf]
    exact hruns.feed
  have hok : (ps.commands ps.redisCommand).ok := hps.2.ok fun t ht => by cases ht
  rw [handleBytes_eq sb hfeed, h.buf, List.nil_append, List.drop_length, handleCommand,
    hps.getCommand_done]
  simp only [hok, if_true, processCommand_bulks hps.2, goBind_ok]
  rfl

/-- A piece of a request is answered exactly if it is the last one. -/
theorem MidRequest.handleBytes_reply (h : MidRequest lim state argv (piece ++ rest)) :
    ∃ sb' state' reply, handleBytes lim upper sb state piece = .ok (sb', state', reply) ∧
      (reply ≠ .noReply ↔ rest = []) := by
  by_cases hrest : rest = []
  · rw [hrest, List.append_nil] at h
    exact ⟨_, _, _, h.handleBytes_last sb, by simp [hrest]⟩
  · obtain ⟨state', hrun, -⟩ := h.handleBytes_more sb upper hrest
    exact ⟨_, _, _, hrun, by simp [hrest]⟩

/-! ## Its steps -/

theorem lastSet_snoc (key : Bytes) (log : List Exchange) (e : Exchange) :
    lastSet upper key (log ++ [e]) =
      match setOf upper e.argv with
      | some (k, value) => if k = key then some value else lastSet upper key log
      | none => lastSet upper key log := by
  rw [lastSet, List.foldl_append]
  rfl

theorem storeAfter_eq (key : Bytes) :
    storeAfter upper sb argv key =
      match setOf upper argv with
      | some (k, value) => if k = key then some value else sb key
      | none => sb key := by
  rw [storeAfter]
  cases setOf upper argv with
  | none => rfl
  | some kv =>
      obtain ⟨k, value⟩ := kv
      by_cases hk : k = key
      · simp [StoreBlock.set, hk]
      · simp [StoreBlock.set, hk, Ne.symm hk]

theorem storeAfter_sizes (hfits : ArgsFit lim argv)
    (hsb : ∀ key p, sb key = some (some p) → p.length < 2 ^ 62) (key p : Bytes)
    (h : storeAfter upper sb argv key = some (some p)) : p.length < 2 ^ 62 := by
  rw [storeAfter_eq] at h
  cases hset : setOf upper argv with
  | none =>
      rw [hset] at h
      exact hsb key p h
  | some kv =>
      obtain ⟨k, value⟩ := kv
      rw [hset] at h
      dsimp only at h
      split_ifs at h with hk
      · -- the value is the last argument
        unfold setOf at hset
        split at hset
        · split_ifs at hset
          cases hset
          exact hfits.payloads p (by simp [Option.some.inj h])
        · cases hset
      · exact hsb key p h

theorem replyTo_get {cmd key : Option Bytes} (hcmd : upper (goString cmd) = getName)
    (hsb : ∀ key p, sb key = some (some p) → p.length < 2 ^ 62) :
    ReadsBack lim (replyTo upper sb [cmd, key])
      (.bulk ((sb (goString key)).getD none)) := by
  have hreply :
      replyTo upper sb [cmd, key] = (Resp.bulk ((sb (goString key)).getD none)).encode := by
    rw [← wrapBulk_eq, replyTo, if_pos hcmd]
  have hsend : (Resp.bulk ((sb (goString key)).getD none)).Sendable lim := by
    cases hval : sb (goString key) with
    | none => trivial
    | some value =>
        cases value with
        | none => trivial
        | some p => exact hsb _ p hval
  rw [hreply]
  exact (Resp.encode_encodes hsend).readsBack hsend.fits

theorem getsAnswered_snoc {log : List Exchange} {e : Exchange} (h : GetsAnswered lim upper log)
    (he : ∀ cmd key, e.argv = [cmd, key] → upper (goString cmd) = getName →
      ReadsBack lim e.reply (.bulk ((lastSet upper (goString key) log).getD none))) :
    GetsAnswered lim upper (log ++ [e]) := by
  intro before f after cmd key hlog hargv hcmd
  rcases List.eq_nil_or_concat after with rfl | ⟨after, g, rfl⟩
  · obtain ⟨rfl, hf⟩ := List.append_inj' hlog rfl
    obtain rfl := List.singleton_inj.mp hf
    exact he cmd key hargv hcmd
  · rw [List.concat_eq_append, ← List.cons_append, ← List.append_assoc] at hlog
    obtain ⟨rfl, -⟩ := List.append_inj' hlog rfl
    exact h before f after cmd key rfl hargv hcmd

end

section

variable {lim : Nat} {upper : Bytes → Bytes} {s : RedisConns}

theorem servedInv_new (lim : Nat) (upper : Bytes → Bytes) :
    ServedInv lim upper newRedisConns where
  idle := fun _ _ => rfl
  busy := by rintro _ _ _ ⟨⟩
  store := fun _ => rfl
  sizes := by rintro _ _ ⟨⟩
  gets := by
    intro before e after cmd key h
    simp [newRedisConns] at h

theorem ServedInv.request {i : Nat} {argv : List (Option Bytes)} {bs : Bytes}
    (h : ServedInv lim upper s) (hi : s.waiting i = none) (hargv : ArgsFit lim argv)
    (hbs : wrapMulitBulk argv.length argv = .ok bs) :
    ServedInv lim upper
      { s with waiting := Function.update s.waiting i (some (argv, bs)) } where
  idle := fun j hj => by
    by_cases hji : j = i
    · subst hji
      simp at hj
    · exact h.idle j (by simpa [hji] using hj)
  busy := fun j argv' left hj => by
    by_cases hji : j = i
    · subst hji
      rw [wrapMulitBulk_eq] at hbs
      cases hbs
      simp only [Function.update_self, Option.some.injEq, Prod.mk.injEq] at hj
      obtain ⟨rfl, rfl⟩ := hj
      change MidRequest lim (s.conns j) _ _
      rw [h.idle j hi]
      exact midRequest_new hargv
    · exact h.busy j argv' left (by simpa [hji] using hj)
  store := h.store
  sizes := h.sizes
  gets := h.gets

theorem ServedInv.deliver {i : Nat} {argv : List (Option Bytes)} {piece rest : Bytes}
    {store : StoreBlock} {state : ConnState} {reply : ProtocolReply} (h : ServedInv lim upper s)
    (hi : s.waiting i = some (argv, piece ++ rest))
    (hrun : handleBytes lim upper s.store (s.conns i) piece = .ok (store, state, reply)) :
    ServedInv lim upper (s.delivered i argv rest store state reply) := by
  have hmid := h.busy i argv _ hi
  by_cases hrest : rest = []
  · rw [hrest, List.append_nil] at hmid
    rw [hmid.handleBytes_last s.store] at hrun
    cases hrun
    refine ⟨?_, ?_, ?_, ?_, ?_⟩
    · intro j hj
      by_cases hji : j = i
      · simp [RedisConns.delivered, hji]
      · simpa [RedisConns.delivered, hji] using
          h.idle j (by simpa [RedisConns.delivered, hji] using hj)
    · intro j argv' left hj
      by_cases hji : j = i
      · simp [RedisConns.delivered, hji] at hj
      · simpa [RedisConns.delivered, hji] using
          h.busy j argv' left (by simpa [RedisConns.delivered, hji] using hj)
    · intro key
      simp only [RedisConns.delivered, storeAfter_eq, lastSet_snoc, h.store]
    · exact storeAfter_sizes s.store hmid.fits h.sizes
    · refine getsAnswered_snoc h.gets fun cmd key hargv hcmd => ?_
      obtain rfl : argv = [cmd, key] := hargv
      rw [← h.store]
      exact replyTo_get s.store hcmd h.sizes
  · obtain ⟨state', hrun', hmid'⟩ := hmid.handleBytes_more s.store upper hrest
    rw [hrun'] at hrun
    cases hrun
    refine ⟨?_, ?_, h.store, h.sizes, h.gets⟩
    · intro j hj
      by_cases hji : j = i
      · simp [RedisConns.delivered, hji] at hj
      · simpa [RedisConns.delivered, hji] using
          h.idle j (by simpa [RedisConns.delivered, hji] using hj)
    · intro j argv' left hj
      by_cases hji : j = i
      · subst hji
        simp only [RedisConns.delivered, Function.update_self, Option.some.injEq,
          Prod.mk.injEq] at hj ⊢
        obtain ⟨rfl, rfl⟩ := hj
        exact hmid'
      · simpa [RedisConns.delivered, hji] using
          h.busy j argv' left (by simpa [RedisConns.delivered, hji] using hj)

theorem served_inv (h : Served lim upper s) : ServedInv lim upper s := by
  induction h with
  | start => exact servedInv_new lim upper
  | request _ hi hargv hbs ih => exact ih.request hi hargv hbs
  | deliver _ hi hrun ih => exact ih.deliver hi hrun

/-- Whatever the clients have sent so far: a piece of a request is handled, and answered
exactly if it is the last one. And each GET got the last value set, since the commands run
on the store in the order of their answers. -/
theorem served_replies (h : Served lim upper s) :
    (∀ i argv piece rest, s.waiting i = some (argv, piece ++ rest) →
      ∃ store state reply,
        handleBytes lim upper s.store (s.conns i) piece = .ok (store, state, reply) ∧
          (reply ≠ .noReply ↔ rest = [])) ∧
    GetsAnswered lim upper s.log := by
  have hinv := served_inv h
  exact ⟨fun i argv piece rest hi => (hinv.busy i argv _ hi).handleBytes_reply s.store, hinv.gets⟩

end

/-- A client can have a whole request answered in one piece, while the others wait for
nothing new. -/
theorem Served.ask {lim : Nat} {upper : Bytes → Bytes} {s : RedisConns} (h : Served lim upper s)
    (i : Nat) (argv : List (Option Bytes)) (hi : s.waiting i = none) (hargv : ArgsFit lim argv) :
    ∃ s', Served lim upper s' ∧ s'.log = s.log ++ [⟨i, argv, replyTo upper s.store argv⟩] ∧
      ∀ j, s.waiting j = none → s'.waiting j = none := by
  have hreq := h.request hi hargv (wrapMulitBulk_eq argv)
  have hmid := midRequest_new hargv
  rw [← (served_inv h).idle i hi] at hmid
  have hwait : Function.update s.waiting i (some (argv, (bulks argv).encode)) i =
      some (argv, (bulks argv).encode ++ []) := by
    rw [List.append_nil, Function.update_self]
  refine ⟨_, hreq.deliver hwait (hmid.handleBytes_last s.store), rfl, ?_⟩
  intro j hj
  by_cases hji : j = i
  · simp [RedisConns.delivered, hji]
  · simpa [RedisConns.delivered, hji] using hj

/-- SET on one connection, and then GET of the same key on another. -/
theorem set_then_get : ∃ s reply, Served 8 id s ∧
    s.log.getLast? = some ⟨1, [some getName, some [107]], reply⟩ ∧
    ReadsBack 8 reply (.bulk (some [13, 10])) := by
  have h₀ : Served 8 id newRedisConns := .start
  obtain ⟨s₁, h₁, hlog₁, hwait₁⟩ := h₀.ask 0 [some setName, some [107], some [13, 10]] rfl
    ⟨by simp, by simp, by simp, by simp [setName]⟩
  obtain ⟨s₂, h₂, hlog₂, -⟩ := h₁.ask 1 [some getName, some [107]] (hwait₁ 1 rfl)
    ⟨by simp, by simp, by simp, by simp [getName]⟩
  refine ⟨s₂, _, h₂, by rw [hlog₂, List.getLast?_concat], ?_⟩
  have hget := (served_replies h₂).2 s₁.log _ [] _ _ hlog₂ rfl rfl
  rw [hlog₁] at hget
  exact hget

end Artorias
