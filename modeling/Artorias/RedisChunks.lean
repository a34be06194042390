import Artorias.RedisHandle

/-!
# Replies do not depend on how the bytes arrive

One connection that has the store to itself. `serve` is a list of calls of
`HandleBytes`, each with what arrived, and gives every reply together with the
store after it. What arrived is always what the parsers so far have consumed,
followed by `state.buf`, and the replies are those to the same bytes one at a
time (`serve_chunks`): both runs are related to the runs of the parser.
-/

namespace Artorias

/-- What a reply brings: its bytes and the store after it. -/
def ProtocolReply.brings (store : StoreBlock) : ProtocolReply → List (Bytes × StoreBlock)
  | .noReply => []
  | .client replyBytes => [(replyBytes, store)]

def serve (lim : Nat) (upper : Bytes → Bytes) (sb : StoreBlock) (state : ConnState) :
    List Bytes → GoRun (StoreBlock × ConnState × List (Bytes × StoreBlock))
  | [] => .ok (sb, state, [])
  | buf :: bufs => do
      let (sb, state, reply) ← handleBytes lim upper sb state buf
      let (sb', state, brought) ← serve lim upper sb state bufs
      .ok (sb', state, reply.brings sb ++ brought)

/-- `pieces` are what a parser in state `ps` and the fresh ones after it consume, one piece
each; all but the last, which is now in state `ps'`, have ended with theirs. -/
inductive Consumes (lim : Nat) : Parser → List Bytes → Parser → Prop where
  | last {ps ps' : Parser} {piece : Bytes} :
      (parser lim).Runs ps piece ps' → Consumes lim ps [piece] ps'
  | next {ps p ps' : Parser} {piece : Bytes} {pieces : List Bytes} :
      (parser lim).Runs ps piece p → (parser lim).ended p = true →
        Consumes lim newParser pieces ps' → Consumes lim ps (piece :: pieces) ps'

/-- One byte at a time. -/
def bytewise (bs : Bytes) : List Bytes := bs.map fun b => [b]

section

variable {lim : Nat} {upper : Bytes → Bytes} {sb sb' : StoreBlock} {ps ps' : Parser} {bs : Bytes}

theorem serve_append (sb : StoreBlock) (state : ConnState) (bufs bufs' : List Bytes) :
    serve lim upper sb state (bufs ++ bufs') = (serve lim upper sb state bufs).bind fun r =>
      (serve lim upper r.1 r.2.1 bufs').map fun t => (t.1, t.2.1, r.2.2 ++ t.2.2) := by
  induction bufs generalizing sb state with
  | nil =>
      change _ = (serve lim upper sb state bufs').map _
      simp only [List.nil_append]
      cases serve lim upper sb state bufs' <;> rfl
  | cons buf bufs ih =>
      rw [List.cons_append, serve, serve]
      cases handleBytes lim upper sb state buf with
      | error e => rfl
      | ok r =>
          rw [goBind_ok, goBind_ok]
          dsimp only
          rw [ih]
          cases serve lim upper r.1 r.2.1 bufs with
          | error e => rfl
          | ok t =>
              simp only [Except.bind, goBind_ok]
              cases serve lim upper t.1 t.2.1 bufs' with
              | error e => rfl
              | ok u => simp [Except.map]

theorem serve_bytewise_append (sb : StoreBlock) (state : ConnState) (bs cs : Bytes) :
    serve lim upper sb state (bytewise (bs ++ cs)) =
      (serve lim upper sb state (bytewise bs)).bind fun r =>
        (serve lim upper r.1 r.2.1 (bytewise cs)).map fun t => (t.1, t.2.1, r.2.2 ++ t.2.2) := by
  rw [bytewise, List.map_append]
  exact serve_append sb state _ _

/-- `handleCommand` looks at the parser only: what it does does not depend on what is left
in the buffer, which it hands on. -/
theorem handleCommand_rest (upper : Bytes → Bytes) (sb : StoreBlock) (ps : Parser) (rest : Bytes) :
    handleCommand upper sb ⟨rest, ps⟩ = (handleCommand upper sb ⟨[], ps⟩).map
      fun r => (r.1, ⟨rest, r.2.1.parser⟩, r.2.2) := by
  rw [handleCommand, handleCommand]
  dsimp only
  cases ps.getCommand with
  | none => rfl
  | some cmd =>
      dsimp only
      split_ifs
      · cases processCommand upper ps.commands sb cmd <;> rfl
      · rfl

/-- Byte by byte through the run of a parser, until it has ended: the calls before the last
one do nothing but feed it, and the last one handles its command. -/
theorem serve_bytewise (h : (parser lim).Runs ps bs ps') (hps : (parser lim).ended ps = false) :
    serve lim upper sb ⟨[], ps⟩ (bytewise bs) = (handleCommand upper sb ⟨[], ps'⟩).map
      fun r => (r.1, r.2.1, r.2.2.brings r.1) := by
  induction h with
  | nil =>
      rw [handleCommand_none upper sb [] hps]
      rfl
  | @cons s s1 s' b bs hs hstep hruns ih =>
      have hfeed : (parser lim).feed s ([] ++ [b]) = .ok (s1, 1) :=
        (Machine.Runs.single hs hstep).feed
      rw [bytewise, List.map_cons, serve, handleBytes_eq sb hfeed]
      change (do
        let (sb, state, reply) ← handleCommand upper sb ⟨[], s1⟩
        let (sb', state, brought) ← serve lim upper sb state (bytewise bs)
        Except.ok (sb', state, reply.brings sb ++ brought)) = _
      cases hend : (parser lim).ended s1 with
      | true =>
          -- nothing is taken after the end
          have hnil : bs = [] := by
            by_contra hne
            rw [hruns.not_ended hne] at hend
            cases hend
          subst hnil
          cases hruns
          obtain ⟨sb', reply, hrun⟩ := handleCommand_some upper sb [] hend
          rw [hrun]
          rfl
      | false =>
          rw [handleCommand_none upper sb [] hend, goBind_ok]
          dsimp only
          rw [ih hend]
          cases handleCommand upper sb ⟨[], s'⟩ with
          | error e => rfl
          | ok r => rfl

/-- One call of `HandleBytes`: what the parser takes of the buffer would have had the same
effect byte by byte, and the rest stays in the buffer. -/
theorem handleBytes_bytewise {state state' : ConnState} {buf : Bytes} {reply : ProtocolReply}
    (hs : (parser lim).ended state.parser = false)
    (h : handleBytes lim upper sb state buf = .ok (sb', state', reply)) :
    ∃ taken ps, state.buf ++ buf = taken ++ state'.buf ∧ (parser lim).Runs state.parser taken ps
      ∧ serve lim upper sb ⟨[], state.parser⟩ (bytewise taken)
        = .ok (sb', ⟨[], state'.parser⟩, reply.brings sb')
      ∧ (parser lim).ended state'.parser = false
      ∧ ((parser lim).ended ps = true ∧ state'.parser = newParser ∧ (reply.brings sb').length = 1
        ∨ state'.parser = ps ∧ reply.brings sb' = []) := by
  cases hfeed : (parser lim).feed state.parser (state.buf ++ buf) with
  | error e =>
      rw [handleBytes] at h
      simp only [Parser.write_eq_feed, hfeed] at h
      cases h
  | ok r =>
      obtain ⟨ps, i⟩ := r
      obtain ⟨-, hruns, -⟩ := Machine.feed_spec hfeed
      rw [handleBytes_eq sb hfeed, handleCommand_rest] at h
      have hserve : serve lim upper sb ⟨[], state.parser⟩ (bytewise _) = _ :=
        serve_bytewise hruns hs
      cases hend : (parser lim).ended ps with
      | true =>
          obtain ⟨sb1, replyBytes, hrun⟩ := handleCommand_some upper sb [] hend
          rw [hrun] at h hserve
          cases h
          exact ⟨_, ps, (List.take_append_drop i _).symm, hruns, hserve, rfl, .inl ⟨hend, rfl, rfl⟩⟩
      | false =>
          rw [handleCommand_none upper sb [] hend] at h hserve
          cases h
          exact ⟨_, ps, (List.take_append_drop i _).symm, hruns, hserve, hend, .inr ⟨rfl, rfl⟩⟩

/-- Any number of calls from any state between two calls: what has been taken would have had
the same effect byte by byte, and the parsers have consumed it piece by piece. -/
theorem serve_taken {state state' : ConnState} {bufs : List Bytes}
    {brought : List (Bytes × StoreBlock)} (hs : (parser lim).ended state.parser = false)
    (h : serve lim upper sb state bufs = .ok (sb', state', brought)) :
    ∃ pieces, state.buf ++ bufs.flatten = pieces.flatten ++ state'.buf
      ∧ Consumes lim state.parser pieces state'.parser ∧ pieces.length = brought.length + 1
      ∧ serve lim upper sb ⟨[], state.parser⟩ (bytewise pieces.flatten)
        = .ok (sb', ⟨[], state'.parser⟩, brought) := by
  induction bufs generalizing sb state brought with
  | nil =>
      cases h
      exact ⟨[[]], by simp, .last .nil, rfl, rfl⟩
  | cons buf bufs ih =>
      rw [serve] at h
      cases hcall : handleBytes lim upper sb state buf with
      | error e => rw [hcall] at h; cases h
      | ok r =>
          obtain ⟨sb1, state1, reply⟩ := r
          rw [hcall, goBind_ok] at h
          dsimp only at h
          cases hrest : serve lim upper sb1 state1 bufs with
          | error e => rw [hrest] at h; cases h
          | ok t =>
              rw [hrest] at h
              cases h
              obtain ⟨taken, ps, hsplit, hruns, hserve, hs1, hcase⟩ := handleBytes_bytewise hs hcall
              obtain ⟨pieces, hflat, hcons, hlen, hserve'⟩ := ih hs1 hrest
              have hbytes : state.buf ++ (buf :: bufs).flatten
                  = (taken ++ pieces.flatten) ++ t.2.1.buf := by
                rw [List.flatten_cons, ← List.append_assoc, hsplit, List.append_assoc, hflat,
                  List.append_assoc]
              have hboth :
                  serve lim upper sb ⟨[], state.parser⟩ (bytewise (taken ++ pieces.flatten))
                  = .ok (t.1, ⟨[], t.2.1.parser⟩, reply.brings sb1 ++ t.2.2) := by
                rw [serve_bytewise_append, hserve]
                change (serve lim upper sb1 ⟨[], state1.parser⟩ (bytewise pieces.flatten)).map _ = _
                rw [hserve']
                rfl
              rcases hcase with ⟨hend, hnew, hone⟩ | ⟨hsame, hnone⟩
              · -- a command is complete: the next piece is the next parser's
                rw [hnew] at hcons
                refine ⟨taken :: pieces, hbytes, .next hruns hend hcons, ?_, hboth⟩
                simp [hlen, hone]
                omega
              · -- the same parser goes on
                rw [hsame] at hcons
                cases hcons with
                | last hruns' =>
                    refine ⟨[taken ++ _], by simpa using hbytes, .last (hruns.append hruns'), ?_,
                      ?_⟩
                    · simpa [hnone] using hlen
                    · simpa using hboth
                | next hruns' hend hcons' =>
                    refine ⟨(taken ++ _) :: _, by simpa using hbytes,
                      .next (hruns.append hruns') hend hcons', ?_, ?_⟩
                    · simpa [hnone] using hlen
                    · simpa using hboth

/-- Where `Write` panics on a whole buffer, it does so byte by byte as well. -/
theorem serve_bytewise_error (sb : StoreBlock) {e : GoPanic} (hps : (parser lim).ended ps = false)
    (h : (parser lim).feed ps bs = .error e) :
    ∃ e, serve lim upper sb ⟨[], ps⟩ (bytewise bs) = .error e := by
  induction bs generalizing ps with
  | nil => cases h
  | cons b bs ih =>
      rw [bytewise, List.map_cons, serve]
      cases hstep : (parser lim).step ps b with
      | error e' =>
          have hfeed : (parser lim).feed ps ([] ++ [b]) = .error e' :=
            Machine.feed_cons_error hps hstep
          refine ⟨e', ?_⟩
          rw [handleBytes]
          simp only [Parser.write_eq_feed, hfeed]
          rfl
      | ok q =>
          rw [Machine.feed_cons_ok hps hstep] at h
          cases hend : (parser lim).ended q with
          | true =>
              rw [Machine.feed_ended hend] at h
              cases h
          | false =>
              have hq : (parser lim).feed q bs = .error e := by
                cases hq : (parser lim).feed q bs with
                | error e' => rw [hq] at h; exact h
                | ok r => rw [hq] at h; cases h
              have hfeed : (parser lim).feed ps ([] ++ [b]) = .ok (q, 1) :=
                (Machine.Runs.single hps hstep).feed
              obtain ⟨e', herr⟩ := ih hend hq
              refine ⟨e', ?_⟩
              rw [handleBytes_eq sb hfeed]
              change (do
                let (sb, state, reply) ← handleCommand upper sb ⟨[], q⟩
                let (sb', state, brought) ← serve lim upper sb state (bytewise bs)
                Except.ok (sb', state, reply.brings sb ++ brought)) = _
              rw [handleCommand_none upper sb [] hend, goBind_ok]
              dsimp only
              rw [herr]
              rfl

/-- Where the parser does not panic byte by byte, it does not on the chunks, which hand it
the same bytes or fewer. -/
theorem serve_ok {state : ConnState} {bufs : List Bytes}
    {r : StoreBlock × ConnState × List (Bytes × StoreBlock)}
    (hs : (parser lim).ended state.parser = false)
    (h : serve lim upper sb ⟨[], state.parser⟩ (bytewise (state.buf ++ bufs.flatten)) = .ok r) :
    ∃ r', serve lim upper sb state bufs = .ok r' := by
  induction bufs generalizing sb state r with
  | nil => exact ⟨_, rfl⟩
  | cons buf bufs ih =>
      rw [List.flatten_cons, ← List.append_assoc] at h
      have hcall : ∃ t, handleBytes lim upper sb state buf = .ok t := by
        cases hfeed : (parser lim).feed state.parser (state.buf ++ buf) with
        | error e =>
            obtain ⟨e', herr⟩ := serve_bytewise_error sb hs hfeed
            rw [serve_bytewise_append, herr] at h
            cases h
        | ok t =>
            rw [handleBytes_eq sb hfeed]
            cases hend : (parser lim).ended t.1 with
            | true =>
                obtain ⟨sb', replyBytes, hrun⟩ := handleCommand_some upper sb _ hend
                exact ⟨_, hrun⟩
            | false => exact ⟨_, handleCommand_none upper sb _ hend⟩
      obtain ⟨⟨sb1, state1, reply⟩, hcall⟩ := hcall
      obtain ⟨taken, ps, hsplit, -, hserve, hs1, -⟩ := handleBytes_bytewise hs hcall
      rw [hsplit, List.append_assoc, serve_bytewise_append, hserve] at h
      change (serve lim upper sb1 ⟨[], state1.parser⟩
        (bytewise (state1.buf ++ bufs.flatten))).map _ = _ at h
      cases hrest : serve lim upper sb1 ⟨[], state1.parser⟩
          (bytewise (state1.buf ++ bufs.flatten)) with
      | error e => rw [hrest] at h; cases h
      | ok t =>
          obtain ⟨r', hr'⟩ := ih hs1 hrest
          rw [serve, hcall, goBind_ok]
          dsimp only
          rw [hr']
          exact ⟨_, rfl⟩

/-- What has arrived is what the parsers have consumed and `state.buf`. The replies, and the
stores after them, are those to the consumed bytes one at a time, and so the first replies
to all of them one at a time. -/
theorem serve_chunks (lim : Nat) (upper : Bytes → Bytes) (sb : StoreBlock) (bufs : List Bytes) :
    ((∃ r, serve lim upper sb newConnState (bytewise bufs.flatten) = .ok r) →
      ∃ r, serve lim upper sb newConnState bufs = .ok r)
    ∧ ∀ sb' state brought, serve lim upper sb newConnState bufs = .ok (sb', state, brought) →
      ∃ pieces, bufs.flatten = pieces.flatten ++ state.buf
        ∧ Consumes lim newParser pieces state.parser ∧ pieces.length = brought.length + 1
        ∧ serve lim upper sb newConnState (bytewise pieces.flatten)
          = .ok (sb', ⟨[], state.parser⟩, brought)
        ∧ ∀ sb1 state1 brought1,
          serve lim upper sb newConnState (bytewise bufs.flatten) = .ok (sb1, state1, brought1) →
            brought <+: brought1 := by
  have hnew : (parser lim).ended newConnState.parser = false := rfl
  refine ⟨fun ⟨r, hr⟩ => serve_ok hnew hr, ?_⟩
  intro sb' state brought h
  obtain ⟨pieces, hflat, hcons, hlen, hserve⟩ := serve_taken hnew h
  change bufs.flatten = _ at hflat
  change serve lim upper sb newConnState (bytewise pieces.flatten) = _ at hserve
  refine ⟨pieces, hflat, hcons, hlen, hserve, ?_⟩
  intro sb1 state1 brought1 hall
  rw [hflat, serve_bytewise_append, hserve] at hall
  change (serve lim upper sb' ⟨[], state.parser⟩ (bytewise state.buf)).map _ = _ at hall
  cases hrest : serve lim upper sb' ⟨[], state.parser⟩ (bytewise state.buf) with
  | error e => rw [hrest] at hall; cases hall
  | ok t =>
      rw [hrest] at hall
      cases hall
      exact ⟨t.2.2, rfl⟩

end

end Artorias
