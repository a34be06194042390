import Artorias.ParserWrites
import Mathlib.Data.List.Induction

/-!
# The server side of a connection (`protocol/redis`)

`HandleBytes` writes what it has to the parser once and answers at most once.
Against a count of the commands in the same bytes (`commandsIn`: a parser that
is fed byte by byte and restarted after each command) it falls behind exactly
when one call brings more than one of them (`replies_iff`).

`strings.ToUpper` is a parameter of everything here.
-/

namespace Artorias

/-! ## `state.go`, `process.go` -/

/-- `storeBlock`; the value of a key can be nil. -/
abbrev StoreBlock := Bytes → Option (Option Bytes)

def newStoreBlock : StoreBlock := fun _ => none

def StoreBlock.set (sb : StoreBlock) (key : Bytes) (value : Option Bytes) : StoreBlock :=
  Function.update sb key (some value)

/-- `string(bs)` -/
def goString (bs : Option Bytes) : Bytes := bs.getD []

def getName : Bytes := [71, 69, 84]

def setName : Bytes := [83, 69, 84]

def pingName : Bytes := [80, 73, 78, 71]

/-- `"$-1\r\n"` -/
def nullReply : Bytes := [36, 45, 49, 13, 10]

/-- `"$4\r\nPONG\r\n"` -/
def pongReply : Bytes := [36, 52, 13, 10, 80, 79, 78, 71, 13, 10]

/-- `"+OK\r\n"` -/
def okReply : Bytes := [43, 79, 75, 13, 10]

/-- `"-ERROR\r\n"` -/
def errorReply : Bytes := [45, 69, 82, 82, 79, 82, 13, 10]

/-- The SET of `processCommand`. -/
def processSet (mem : Ref → RedisCommand) (sb : StoreBlock) (cmdStr : Bytes) (argv : List Ref) :
    GoRun StoreBlock :=
  if cmdStr = setName ∧ argv.length = 3 then do
    let key ← goIndex argv 1
    let value ← goIndex argv 2
    .ok (sb.set (goString (mem key).value.bytes) (mem value).value.bytes)
  else .ok sb

/-- The rest of `processCommand`: the reply to a PING, and `okReply` for every other
command. -/
def processPing (mem : Ref → RedisCommand) (cmdStr : Bytes) (argv : List Ref) : GoRun Bytes :=
  if cmdStr = pingName then
    if argv.length = 1 then .ok pongReply
    else if argv.length = 2 then do
      let arg ← goIndex argv 1
      .ok (wrapBulk (mem arg).value.bytes)
    else .ok okReply
  else .ok okReply

def processCommand (upper : Bytes → Bytes) (mem : Ref → RedisCommand) (sb : StoreBlock)
    (cmd : Ref) : GoRun (StoreBlock × Bytes) :=
  if (mem cmd).type = .mulit then
    let argv := (mem cmd).value.commands
    if argv.length > 0 then do
      let arg ← goIndex argv 0
      let cmdStr := upper (goString (mem arg).value.bytes)
      if cmdStr = getName ∧ argv.length = 2 then do
        let arg ← goIndex argv 1
        match sb (goString (mem arg).value.bytes) with
        | some val => .ok (sb, wrapBulk val)
        | none => .ok (sb, nullReply)
      else do
        let sb ← processSet mem sb cmdStr argv
        let reply ← processPing mem cmdStr argv
        .ok (sb, reply)
    else .ok (sb, okReply)
  else .ok (sb, okReply)

/-! ## `handle.go` -/

structure ConnState where
  buf : Bytes
  parser : Parser

def newConnState : ConnState := ⟨[], newParser⟩

inductive ProtocolReply where
  | noReply
  | client (replyBytes : Bytes)
deriving Repr, DecidableEq

/-- `xs[i:]` -/
def goSliceFrom {α : Type} (xs : List α) (i : Nat) : GoRun (List α) :=
  if i ≤ xs.length then .ok (xs.drop i) else .error .slice

/-- The end of `HandleBytes`, from `GetCommand` on. -/
def handleCommand (upper : Bytes → Bytes) (sb : StoreBlock) (state : ConnState) :
    GoRun (StoreBlock × ConnState × ProtocolReply) :=
  match state.parser.getCommand with
  | none => .ok (sb, state, .noReply)
  | some cmd => do
      let mem := state.parser.commands
      let state := { state with parser := newParser }
      if (mem cmd).ok then do
        let (sb, replyBytes) ← processCommand upper mem sb cmd
        .ok (sb, state, .client replyBytes)
      else .ok (sb, state, .client errorReply)

def handleBytes (lim : Nat) (upper : Bytes → Bytes) (sb : StoreBlock) (state : ConnState)
    (buf : Bytes) : GoRun (StoreBlock × ConnState × ProtocolReply) := do
  let state := { state with buf := state.buf ++ buf }
  let (parser, i) ← state.parser.write lim state.buf
  let rest ← goSliceFrom state.buf i
  handleCommand upper sb ⟨rest, parser⟩

/-! ## `processCommand` does not panic -/

section

variable (upper : Bytes → Bytes) (mem : Ref → RedisCommand) (sb : StoreBlock)

theorem goIndex_cons {α : Type} (x : α) (xs : List α) : goIndex (x :: xs) 0 = .ok x := rfl

theorem goIndex_cons_cons {α : Type} (x y : α) (xs : List α) :
    goIndex (x :: y :: xs) 1 = .ok y := rfl

theorem processSet_ok (cmdStr : Bytes) (argv : List Ref) :
    ∃ sb', processSet mem sb cmdStr argv = .ok sb' := by
  rw [processSet]
  split_ifs with h
  · obtain ⟨a, b, c, rfl⟩ := List.length_eq_three.mp h.2
    exact ⟨_, rfl⟩
  · exact ⟨sb, rfl⟩

theorem processPing_ok (cmdStr : Bytes) (argv : List Ref) :
    ∃ reply, processPing mem cmdStr argv = .ok reply := by
  rw [processPing]
  split_ifs with hping h1 h2
  · exact ⟨_, rfl⟩
  · obtain ⟨a, b, rfl⟩ := List.length_eq_two.mp h2
    exact ⟨_, rfl⟩
  · exact ⟨_, rfl⟩
  · exact ⟨_, rfl⟩

theorem processCommand_ok (cmd : Ref) : ∃ r, processCommand upper mem sb cmd = .ok r := by
  rw [processCommand]
  split_ifs with hmulit
  · cases hargv : (mem cmd).value.commands with
    | nil => exact ⟨_, rfl⟩
    | cons a argv =>
        simp only [List.length_cons, Nat.zero_lt_succ, gt_iff_lt, if_true, goIndex_cons, goBind_ok]
        split_ifs with hget
        · obtain ⟨b, rfl⟩ := List.length_eq_one_iff.mp (by simpa using hget.2)
          rw [goIndex_cons_cons, goBind_ok]
          split <;> exact ⟨_, rfl⟩
        · obtain ⟨sb', hset⟩ :=
            processSet_ok mem sb (upper (goString (mem a).value.bytes)) (a :: argv)
          obtain ⟨reply, hping⟩ :=
            processPing_ok mem (upper (goString (mem a).value.bytes)) (a :: argv)
          rw [hset, goBind_ok, hping]
          exact ⟨_, rfl⟩
  · exact ⟨_, rfl⟩

end

/-! ## Replies and commands -/

def ProtocolReply.count : ProtocolReply → Nat
  | .noReply => 0
  | .client _ => 1

/-- The calls of `HandleBytes` on one connection, each with the store that it
finds: the number of replies. -/
def replies (lim : Nat) (upper : Bytes → Bytes) (state : ConnState) :
    List (StoreBlock × Bytes) → GoRun (ConnState × Nat)
  | [] => .ok (state, 0)
  | (sb, buf) :: calls => do
      let (_, state, reply) ← handleBytes lim upper sb state buf
      let (state, n) ← replies lim upper state calls
      .ok (state, reply.count + n)

/-- One byte for a parser that is restarted after each command; the number
counts the commands. -/
def countByte (lim : Nat) (r : Parser × Nat) (b : UInt8) : GoRun (Parser × Nat) := do
  let (ps, _) ← r.1.write lim [b]
  match ps.getCommand with
  | none => .ok (ps, r.2)
  | some _ => .ok (newParser, r.2 + 1)

def countFrom (lim : Nat) (r : Parser × Nat) : Bytes → GoRun (Parser × Nat)
  | [] => .ok r
  | b :: bs => do
      let r ← countByte lim r b
      countFrom lim r bs

/-- The complete commands in the bytes. -/
def commandsIn (lim : Nat) (bs : Bytes) : GoRun Nat :=
  (countFrom lim (newParser, 0) bs).map Prod.snd

section

variable {lim : Nat} {upper : Bytes → Bytes} {ps ps' : Parser} {n : Nat} {bs : Bytes}

theorem countByte_step {b : UInt8} (hs : (parser lim).ended ps = false)
    (h : (parser lim).step ps b = .ok ps') :
    countByte lim (ps, n) b =
      .ok (if (parser lim).ended ps' = true then (newParser, n + 1) else (ps', n)) := by
  rw [countByte, Parser.write_eq_feed, (Machine.Runs.single hs h).feed, goBind_ok]
  cases hend : (parser lim).ended ps' with
  | true =>
      have hget : ps'.getCommand = some ps'.redisCommand := if_pos (List.isEmpty_iff.mp hend)
      simp [hget]
  | false => simp [getCommand_eq_none.mpr hend]

theorem countByte_error {b : UInt8} {e : GoPanic} (hs : (parser lim).ended ps = false)
    (h : (parser lim).step ps b = .error e) : countByte lim (ps, n) b = .error e := by
  rw [countByte, Parser.write_eq_feed, Machine.feed_cons_error hs h]
  rfl

/-- What one call of `Write` does to the count of commands: the bytes that it consumes end
one command, if the parser has ended, and the count goes on after them. -/
theorem countFrom_write (hs : (parser lim).ended ps = false) {i : Nat}
    (h : (parser lim).feed ps bs = .ok (ps', i)) :
    countFrom lim (ps, n) bs = countFrom lim
      (if (parser lim).ended ps' = true then (newParser, n + 1) else (ps', n)) (bs.drop i) := by
  induction bs generalizing ps i with
  | nil =>
      cases h
      rw [if_neg (by simp [hs])]
      rfl
  | cons b bs ih =>
      cases hstep : (parser lim).step ps b with
      | error e =>
          rw [Machine.feed_cons_error hs hstep] at h
          cases h
      | ok q =>
          rw [Machine.feed_cons_ok hs hstep] at h
          cases hq : (parser lim).feed q bs with
          | error e =>
              rw [hq] at h
              cases h
          | ok r =>
              rw [hq] at h
              cases h
              rw [countFrom, countByte_step hs hstep, goBind_ok, List.drop_succ_cons]
              cases hend : (parser lim).ended q with
              | true =>
                  rw [Machine.feed_ended hend] at hq
                  cases hq
                  simp [hend]
              | false => exact ih hend hq

theorem countFrom_error (hs : (parser lim).ended ps = false) {e : GoPanic}
    (h : (parser lim).feed ps bs = .error e) : countFrom lim (ps, n) bs = .error e := by
  induction bs generalizing ps with
  | nil => cases h
  | cons b bs ih =>
      cases hstep : (parser lim).step ps b with
      | error e' =>
          rw [Machine.feed_cons_error hs hstep] at h
          cases h
          rw [countFrom, countByte_error hs hstep]
          rfl
      | ok q =>
          rw [Machine.feed_cons_ok hs hstep] at h
          rw [countFrom, countByte_step hs hstep, goBind_ok]
          cases hend : (parser lim).ended q with
          | true =>
              rw [Machine.feed_ended hend] at h
              cases h
          | false =>
              refine ih hend ?_
              cases hq : (parser lim).feed q bs with
              | error e' =>
                  rw [hq] at h
                  exact h
              | ok r =>
                  rw [hq] at h
                  cases h

theorem countFrom_append (r : Parser × Nat) (bs cs : Bytes) :
    countFrom lim r (bs ++ cs) = (countFrom lim r bs).bind fun r => countFrom lim r cs := by
  induction bs generalizing r with
  | nil => rfl
  | cons b bs ih =>
      rw [List.cons_append, countFrom, countFrom]
      cases countByte lim r b with
      | error e => rfl
      | ok r' => exact ih r'

theorem countByte_le {r r' : Parser × Nat} {b : UInt8} (h : countByte lim r b = .ok r') :
    r.2 ≤ r'.2 := by
  rw [countByte] at h
  cases hw : r.1.write lim [b] with
  | error e =>
      rw [hw] at h
      cases h
  | ok q =>
      rw [hw, goBind_ok] at h
      dsimp only at h
      split at h <;> cases h
      · exact Nat.le_refl _
      · exact Nat.le_succ _

theorem countFrom_le {r r' : Parser × Nat} (h : countFrom lim r bs = .ok r') : r.2 ≤ r'.2 := by
  induction bs generalizing r with
  | nil =>
      cases h
      exact Nat.le_refl _
  | cons b bs ih =>
      rw [countFrom] at h
      cases hb : countByte lim r b with
      | error e =>
          rw [hb] at h
          cases h
      | ok q =>
          rw [hb, goBind_ok] at h
          exact Nat.le_trans (countByte_le hb) (ih h)

theorem countFrom_encodes {v : Resp} (h : Encodes v bs) (hfits : v.Fits lim) (n : Nat)
    (rest : Bytes) :
    countFrom lim (newParser, n) (bs ++ rest) = countFrom lim (newParser, n + 1) rest := by
  obtain ⟨ps, hruns, hps⟩ := (parser_sim lim).runs holds_newParser (h.reads [] hfits).1
  have hend : (parser lim).ended ps = true := List.isEmpty_iff.mpr hps.1
  rw [countFrom_write rfl (hruns.feed_ended hend rest), if_pos hend, List.drop_left]

/-! ## One call -/

theorem handleBytes_eq {state : ConnState} {buf : Bytes} {i : Nat} (sb : StoreBlock)
    (h : (parser lim).feed state.parser (state.buf ++ buf) = .ok (ps, i)) :
    handleBytes lim upper sb state buf =
      handleCommand upper sb ⟨(state.buf ++ buf).drop i, ps⟩ := by
  rw [handleBytes]
  simp only [Parser.write_eq_feed, h, goBind_ok]
  rw [goSliceFrom, if_pos (Machine.feed_spec h).1, goBind_ok]

theorem handleCommand_none (upper : Bytes → Bytes) (sb : StoreBlock) (rest : Bytes)
    (h : (parser lim).ended ps = false) :
    handleCommand upper sb ⟨rest, ps⟩ = .ok (sb, ⟨rest, ps⟩, .noReply) := by
  rw [handleCommand, getCommand_eq_none.mpr h]

/-- A complete command is answered, and the next one gets a fresh parser. -/
theorem handleCommand_some (upper : Bytes → Bytes) (sb : StoreBlock) (rest : Bytes)
    (h : (parser lim).ended ps = true) : ∃ sb' replyBytes,
    handleCommand upper sb ⟨rest, ps⟩ = .ok (sb', ⟨rest, newParser⟩, .client replyBytes) := by
  have hget : ps.getCommand = some ps.redisCommand := if_pos (List.isEmpty_iff.mp h)
  rw [handleCommand, hget]
  by_cases hok : (ps.commands ps.redisCommand).ok
  · obtain ⟨⟨sb', reply⟩, hrun⟩ := processCommand_ok upper ps.commands sb ps.redisCommand
    refine ⟨sb', reply, ?_⟩
    simp only [hok, if_true, hrun, goBind_ok]
  · refine ⟨sb, errorReply, ?_⟩
    simp only [hok]
    rfl

/-- The connection has given `n` replies to the bytes `taken`; what its parser has of the
next command, with what is in the buffer, is where the count stands after `n` commands. -/
def InStep (lim : Nat) (state : ConnState) (n : Nat) (taken : Bytes) : Prop :=
  (parser lim).ended state.parser = false ∧
    countFrom lim (state.parser, n) state.buf = countFrom lim (newParser, 0) taken

theorem inStep_newConnState (lim : Nat) : InStep lim newConnState 0 [] := ⟨rfl, rfl⟩

theorem handleBytes_inStep {state : ConnState} {taken buf : Bytes} {m : Nat}
    (upper : Bytes → Bytes) (sb : StoreBlock) (h : InStep lim state n taken)
    (hcount : countFrom lim (newParser, 0) (taken ++ buf) = .ok (ps, m)) :
    ∃ sb' state' reply, handleBytes lim upper sb state buf = .ok (sb', state', reply) ∧
      InStep lim state' (n + reply.count) (taken ++ buf) ∧ n + reply.count = min (n + 1) m := by
  obtain ⟨hs, hstep⟩ := h
  have hcount' := hcount
  rw [countFrom_append, ← hstep, ← countFrom_append] at hcount'
  cases hfeed : (parser lim).feed state.parser (state.buf ++ buf) with
  | error e =>
      rw [countFrom_error hs hfeed] at hcount'
      cases hcount'
  | ok r =>
      obtain ⟨q, i⟩ := r
      rw [countFrom_write hs hfeed] at hcount'
      cases hend : (parser lim).ended q with
      | true =>
          obtain ⟨sb', reply, hrun⟩ := handleCommand_some upper sb ((state.buf ++ buf).drop i) hend
          rw [if_pos hend] at hcount'
          refine ⟨sb', _, _, (handleBytes_eq sb hfeed).trans hrun, ⟨rfl, ?_⟩, ?_⟩
          · exact hcount'.trans hcount.symm
          · exact (Nat.min_eq_left (countFrom_le hcount')).symm
      | false =>
          have hrun := handleCommand_none upper sb ((state.buf ++ buf).drop i) hend
          rw [if_neg (by simp [hend])] at hcount'
          refine ⟨sb, _, _, (handleBytes_eq sb hfeed).trans hrun, ⟨hend, ?_⟩, ?_⟩
          · exact hcount'.trans hcount.symm
          · -- everything has been consumed
            have hall : (state.buf ++ buf).drop i = [] := by
              rcases (Machine.feed_spec hfeed).2.2 with hi | hi
              · rw [hi, List.drop_length]
              · rw [hend] at hi
                cases hi
            rw [hall] at hcount'
            cases hcount'
            exact (Nat.min_eq_right (Nat.le_succ n)).symm

end

/-! ## All calls -/

/-- The bytes received in the calls. -/
def bytesOf (calls : List (StoreBlock × Bytes)) : Bytes := (calls.map Prod.snd).flatten

theorem bytesOf_snoc (calls : List (StoreBlock × Bytes)) (call : StoreBlock × Bytes) :
    bytesOf (calls ++ [call]) = bytesOf calls ++ call.2 := by
  simp [bytesOf]

section

variable {lim : Nat} {upper : Bytes → Bytes} {calls : List (StoreBlock × Bytes)}

theorem replies_append (state : ConnState) (calls : List (StoreBlock × Bytes))
    (call : StoreBlock × Bytes) :
    replies lim upper state (calls ++ [call]) = (replies lim upper state calls).bind fun r =>
      (handleBytes lim upper call.1 r.1 call.2).map fun t => (t.2.1, r.2 + t.2.2.count) := by
  induction calls generalizing state with
  | nil =>
      rw [List.nil_append, replies, replies]
      change _ = (handleBytes lim upper call.1 state call.2).map _
      cases handleBytes lim upper call.1 state call.2 <;> simp [replies, Except.map]
  | cons c calls ih =>
      rw [List.cons_append, replies, replies]
      cases handleBytes lim upper c.1 state c.2 with
      | error e => rfl
      | ok r =>
          rw [goBind_ok, goBind_ok]
          dsimp only
          rw [ih]
          cases replies lim upper r.2.1 calls with
          | error e => rfl
          | ok t =>
              simp only [Except.bind, goBind_ok]
              cases handleBytes lim upper call.1 t.1 call.2 with
              | error e => rfl
              | ok u => simp [Except.map, Nat.add_assoc]

theorem commandsIn_eq {bs : Bytes} {n : Nat} (h : commandsIn lim bs = .ok n) :
    ∃ ps, countFrom lim (newParser, 0) bs = .ok (ps, n) := by
  rw [commandsIn] at h
  cases hc : countFrom lim (newParser, 0) bs with
  | error e =>
      rw [hc] at h
      cases h
  | ok r =>
      rw [hc] at h
      cases h
      exact ⟨r.1, rfl⟩

theorem countFrom_prefix {bs cs : Bytes} {r r' : Parser × Nat}
    (h : countFrom lim r (bs ++ cs) = .ok r') : ∃ q, countFrom lim r bs = .ok q := by
  rw [countFrom_append] at h
  cases hb : countFrom lim r bs with
  | error e =>
      rw [hb] at h
      cases h
  | ok q => exact ⟨q, rfl⟩

theorem replies_inStep {ps : Parser} {m : Nat} (upper : Bytes → Bytes)
    (h : countFrom lim (newParser, 0) (bytesOf calls) = .ok (ps, m)) :
    ∃ state n, replies lim upper newConnState calls = .ok (state, n) ∧
      InStep lim state n (bytesOf calls) := by
  induction calls using List.reverseRecOn generalizing ps m with
  | nil => exact ⟨newConnState, 0, rfl, inStep_newConnState lim⟩
  | append_singleton calls call ih =>
      rw [bytesOf_snoc] at h ⊢
      obtain ⟨⟨q, k⟩, hq⟩ := countFrom_prefix h
      obtain ⟨state, n, hrun, hin⟩ := ih hq
      obtain ⟨sb', state', reply, hcall, hin', -⟩ :=
        handleBytes_inStep upper call.1 hin h
      refine ⟨state', n + reply.count, ?_, hin'⟩
      rw [replies_append, hrun]
      simp only [Except.bind, hcall, Except.map]

/-- One more call gives at most one more reply, and no more than there are commands: at most
one command is handled in a call, and the rest waits in the buffer. -/
theorem replies_snoc {call : StoreBlock × Bytes} {state : ConnState} {m n : Nat}
    (hcount : commandsIn lim (bytesOf (calls ++ [call])) = .ok m)
    (hrun : replies lim upper newConnState calls = .ok (state, n)) :
    ∃ state', replies lim upper newConnState (calls ++ [call]) = .ok (state', min (n + 1) m) := by
  obtain ⟨ps, hps⟩ := commandsIn_eq hcount
  rw [bytesOf_snoc] at hps
  obtain ⟨⟨q, k⟩, hq⟩ := countFrom_prefix hps
  obtain ⟨state₁, n₁, hrun₁, hin⟩ := replies_inStep upper hq
  rw [hrun] at hrun₁
  cases hrun₁
  obtain ⟨sb', state', reply, hcall, -, hmin⟩ := handleBytes_inStep upper call.1 hin hps
  refine ⟨state', ?_⟩
  rw [replies_append, hrun]
  simp only [Except.bind, hcall, Except.map, hmin]

theorem commandsIn_take {n : Nat} (h : commandsIn lim (bytesOf calls) = .ok n) (k : Nat) :
    ∃ m, commandsIn lim (bytesOf (calls.take k)) = .ok m := by
  obtain ⟨ps, hps⟩ := commandsIn_eq h
  have hsplit : bytesOf calls = bytesOf (calls.take k) ++ bytesOf (calls.drop k) := by
    rw [bytesOf, bytesOf, bytesOf, ← List.flatten_append, ← List.map_append, List.take_append_drop]
  rw [hsplit] at hps
  obtain ⟨q, hq⟩ := countFrom_prefix hps
  exact ⟨q.2, by rw [commandsIn, hq]; rfl⟩

/-- After each call there are as many replies as commands in the bytes so far. -/
def KeepsUp (lim : Nat) (upper : Bytes → Bytes) (calls : List (StoreBlock × Bytes)) : Prop :=
  ∀ k ≤ calls.length, ∃ state n, replies lim upper newConnState (calls.take k) = .ok (state, n) ∧
    commandsIn lim (bytesOf (calls.take k)) = .ok n

/-- Each call brings the end of one command at most. -/
def OneEach (lim : Nat) (calls : List (StoreBlock × Bytes)) : Prop :=
  ∀ k < calls.length, ∀ m n, commandsIn lim (bytesOf (calls.take k)) = .ok m →
    commandsIn lim (bytesOf (calls.take (k + 1))) = .ok n → n ≤ m + 1

theorem replies_iff (h : ∃ n, commandsIn lim (bytesOf calls) = .ok n) :
    KeepsUp lim upper calls ↔ OneEach lim calls := by
  obtain ⟨total, htotal⟩ := h
  constructor
  · intro hkeeps k hk m n hm hn
    obtain ⟨state, m', hrun, hm'⟩ := hkeeps k (Nat.le_of_lt hk)
    rw [hm] at hm'
    cases hm'
    obtain ⟨state', n', hrun', hn'⟩ := hkeeps (k + 1) hk
    rw [hn] at hn'
    cases hn'
    rw [List.take_succ_eq_append_getElem hk] at hn hrun'
    obtain ⟨state'', hrun''⟩ := replies_snoc hn hrun
    have hmin : n = min (m + 1) n :=
      congrArg Prod.snd (Except.ok.inj (hrun'.symm.trans hrun''))
    omega
  · intro hone k hk
    induction k with
    | zero => exact ⟨newConnState, 0, rfl, rfl⟩
    | succ k ih =>
        obtain ⟨state, m, hrun, hm⟩ := ih (Nat.le_of_lt hk)
        obtain ⟨n, hn⟩ := commandsIn_take htotal (k + 1)
        have hle := hone k hk m n hm hn
        have hn' := hn
        rw [List.take_succ_eq_append_getElem hk] at hn'
        obtain ⟨state', hrun'⟩ := replies_snoc hn' hrun
        rw [Nat.min_eq_right hle, ← List.take_succ_eq_append_getElem hk] at hrun'
        exact ⟨state', n, hrun', hn⟩

end

/-- PING as an array of one bulk string. -/
def pingRequest : Bytes := (bulks [some pingName]).encode

theorem commandsIn_ping (n : Nat) (rest : Bytes) :
    countFrom (2 ^ 45) (newParser, n) (pingRequest ++ rest) =
      countFrom (2 ^ 45) (newParser, n + 1) rest := by
  have hargs : ArgsFit (2 ^ 45) [some pingName] := ⟨by simp, by simp, by simp, by simp [pingName]⟩
  exact countFrom_encodes (Resp.encode_encodes hargs.sendable) hargs.sendable.fits n rest

/-- Two requests in one call: the second is not answered until the next call comes. -/
theorem pipelined_not_keepsUp :
    ¬∀ (upper : Bytes → Bytes) (calls : List (StoreBlock × Bytes)),
      (∃ n, commandsIn (2 ^ 45) (bytesOf calls) = .ok n) → KeepsUp (2 ^ 45) upper calls := by
  intro hall
  have htwo : commandsIn (2 ^ 45) (bytesOf [(newStoreBlock, pingRequest ++ pingRequest)]) =
      .ok 2 := by
    rw [bytesOf, commandsIn]
    simp only [List.map_cons, List.map_nil, List.flatten_cons, List.flatten_nil, List.append_assoc]
    rw [commandsIn_ping, commandsIn_ping]
    rfl
  obtain ⟨state, n, hrun, hn⟩ := hall id _ ⟨2, htwo⟩ 1 (by decide)
  rw [List.take_of_length_le (by decide), htwo] at hn
  cases hn
  have hnone : replies (2 ^ 45) id newConnState [] = .ok (newConnState, 0) := rfl
  obtain ⟨state', hrun'⟩ := replies_snoc htwo hnone
  rw [List.take_of_length_le (by decide)] at hrun
  rw [List.nil_append, hrun] at hrun'
  cases hrun'

/-- One request in one call is answered at once. -/
theorem ping_keepsUp_iff :
    KeepsUp (2 ^ 45) id [(newStoreBlock, pingRequest)] ↔
      OneEach (2 ^ 45) [(newStoreBlock, pingRequest)] := by
  refine replies_iff ⟨1, ?_⟩
  rw [bytesOf, commandsIn]
  simp only [List.map_cons, List.map_nil, List.flatten_cons, List.flatten_nil]
  rw [commandsIn_ping]
  rfl

end Artorias
