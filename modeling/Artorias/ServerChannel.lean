import Mathlib.Data.Nat.Find
import Mathlib.Logic.Relation
import Artorias.ServerHandle

/-!
# The event channel (`socketframe/server/worker.go`)

A worker's channel has room for 16 events. `readBytes` and the callers of
`SendInfoTo` send to it while `worker.alive` is set, and `handle` receives; a
sender looks at the flag first and sends later.

- `channel_drains`: nobody is left sending to a channel that is full for good, as
  long as there is room, when `handle` clears the flag, for what is on the way
  then; and whenever there is not, somebody can be left so.
- `readBytes_closes_iff`: `readBytes` reports the end of the connection exactly if
  one of its reads gives `io.EOF`; after other errors it reads on for ever.
-/

namespace Artorias

namespace Server

variable {α : Type}

/-! ## `readBytes` -/

/-- What `conn.Read` returns: `io.EOF`, another error, or data. -/
inductive ReadResult where
  | eof
  | error
  | data (buf : List (BitVec 8))
deriving Repr, DecidableEq

/-- Where `readBytes` is. -/
inductive ReaderAt (α : Type) where
  /-- `handle` has not started it. -/
  | idle
  /-- `for worker.alive` -/
  | check
  /-- `worker.conn.Read` -/
  | read
  /-- `worker.eventChannel <- ...` -/
  | send (e : Event α)
  | done

def closeEvent : Event α := ⟨.connClose, .nil⟩

def dataEvent (buf : List (BitVec 8)) : Event α := ⟨.readByteFromConn, .bytes buf⟩

def afterCheck (alive : Bool) : ReaderAt α := if alive then .read else .done

def afterRead (r : ReadResult) : ReaderAt α :=
  match r with
  | .eof => .send closeEvent
  | .error => .check
  | .data buf => .send (dataEvent buf)

/-- Behind the `_EVENT_CONN_CLOSE` there is a `break`. -/
def afterSend (e : Event α) : ReaderAt α :=
  if e.flag = .connClose then .done else .check

/-! ## The parties -/

/-- Where `handle` is. -/
inductive HandleAt (α : Type) where
  /-- `protocol.Init` -/
  | init
  /-- `range worker.eventChannel` -/
  | receive
  | handling (e : Event α)
  /-- `protocol.Terminal` -/
  | terminal
  /-- `worker.alive = false` -/
  | dead
  /-- `worker.conn.Close` -/
  | close
  | done

/-- A worker with its goroutines. -/
structure Parties (α : Type) where
  alive : Bool
  eventChannel : List (Event α)
  handle : HandleAt α
  reader : ReaderAt α
  /-- The infos of the calls of `SendInfoTo` that have found the worker alive and
  have not sent yet. -/
  sends : List (Value α)

/-- `make(chan *event, 16)` -/
def channelCap : Nat := 16

/-- `newWorker`, and `go handle` -/
def newParties : Parties α :=
  { alive := true
    eventChannel := []
    handle := .init
    reader := .idle
    sends := [] }

/-- Whether `Init` starts the connection. -/
def Outcome.starts (r : Outcome α (InitState α)) : Bool :=
  match r with
  | .result initState => initState.flag = .ok
  | .nil => false
  | .panic _ => false

/-- Where a turn of the loop leads. -/
def Turn.leads (t : Turn α) : HandleAt α :=
  match t with
  | .next _ _ => .receive
  | .exit _ _ _ => .terminal

namespace Parties

/-- Room in the channel. -/
def HasRoom (s : Parties α) : Prop := s.eventChannel.length < channelCap

instance (s : Parties α) : Decidable s.HasRoom := inferInstanceAs (Decidable (_ < _))

def put (s : Parties α) (e : Event α) : Parties α :=
  { s with eventChannel := s.eventChannel ++ [e] }

/-- `Init` has returned. -/
def afterInit (s : Parties α) (r : Outcome α (InitState α)) : Parties α :=
  if r.starts then { s with handle := .receive, reader := .check } else
    { s with handle := .terminal }

/-- One step of one party. -/
inductive Step : Parties α → Parties α → Prop where
  | init {s : Parties α} (r : Outcome α (InitState α)) : s.handle = .init → Step s (s.afterInit r)
  | receive {s : Parties α} {e : Event α} {es : List (Event α)} : s.handle = .receive →
      s.eventChannel = e :: es → Step s { s with eventChannel := es, handle := .handling e }
  | handled {s : Parties α} {e : Event α} (p : Protocol α) (past : List (Act α)) (state : Value α) :
      s.handle = .handling e → Step s { s with handle := (turn p past e state).leads }
  | terminal {s : Parties α} : s.handle = .terminal → Step s { s with handle := .dead }
  | dead {s : Parties α} : s.handle = .dead → Step s { s with alive := false, handle := .close }
  | close {s : Parties α} : s.handle = .close → Step s { s with handle := .done }
  /-- `SendInfoTo`: `if worker.alive` -/
  | call {s : Parties α} (info : Value α) : s.alive = true →
      Step s { s with sends := info :: s.sends }
  /-- `SendInfoTo`: `worker.eventChannel <- ...` -/
  | send {s : Parties α} {info : Value α} {before after : List (Value α)} :
      s.sends = before ++ info :: after → s.HasRoom →
        Step s { s.put ⟨.customInfo, info⟩ with sends := before ++ after }
  | check {s : Parties α} : s.reader = .check → Step s { s with reader := afterCheck s.alive }
  | read {s : Parties α} (r : ReadResult) : s.reader = .read →
      Step s { s with reader := afterRead r }
  | put {s : Parties α} {e : Event α} : s.reader = .send e → s.HasRoom →
      Step s { s.put e with reader := afterSend e }

/-- `handle` has returned, and somebody is sending to the full channel. -/
def Stuck (s : Parties α) : Prop :=
  s.handle = .done ∧ ¬s.HasRoom ∧ (s.sends ≠ [] ∨ ∃ e, s.reader = .send e)

/-! ## Room for what is on the way -/

end Parties

/-- Whether the reader may still send before it looks at the flag. -/
def ReaderAt.onTheWay : ReaderAt α → Nat
  | read => 1
  | send _ => 1
  | idle => 0
  | check => 0
  | done => 0

@[simp] theorem onTheWay_afterCheck_false : (afterCheck false : ReaderAt α).onTheWay = 0 := rfl

theorem onTheWay_afterRead (r : ReadResult) : (afterRead r : ReaderAt α).onTheWay ≤ 1 := by
  cases r with
  | eof | data => exact Nat.le_refl _
  | error => exact Nat.zero_le _

@[simp] theorem onTheWay_afterSend (e : Event α) : (afterSend e).onTheWay = 0 := by
  rw [afterSend]
  split <;> rfl

namespace Parties

/-- The senders that have found the worker alive, and so will still send: the callers of
`SendInfoTo` that have got past the test, and the reader as far as it is on its way. -/
def pending (s : Parties α) : Nat := s.sends.length + s.reader.onTheWay

/-- The channel has room for what all of them send, even if nobody receives any more. -/
def Drains (s : Parties α) : Prop := s.eventChannel.length + s.pending ≤ channelCap

instance (s : Parties α) : Decidable s.Drains := inferInstanceAs (Decidable (_ ≤ _))

/-- The flag has been cleared. -/
def Cleared (s : Parties α) : Prop := s.handle = .close ∨ s.handle = .done

/-- A step that clears the flag only if the channel has room for everybody on the way. -/
def DrainingStep (s s' : Parties α) : Prop :=
  Step s s' ∧ (s.handle = .dead → s'.handle = .close → s.Drains)

theorem not_cleared_afterInit {s : Parties α} (r : Outcome α (InitState α)) :
    ¬(s.afterInit r).Cleared := by
  rw [afterInit, Cleared]
  split <;> simp

theorem not_cleared_handled {s : Parties α} (t : Turn α) :
    ¬({ s with handle := t.leads }).Cleared := by
  cases t <;> simp [Cleared, Turn.leads]

/-- Once the flag is cleared nobody more comes on the way, and each that sends takes the
place that was kept for it. -/
theorem DrainingStep.drains {s s' : Parties α} (h : DrainingStep s s')
    (hs : s.Cleared → s.alive = false ∧ s.Drains) : s'.Cleared → s'.alive = false ∧ s'.Drains := by
  obtain ⟨hstep, hroom⟩ := h
  intro hc
  cases hstep with
  | init r => exact absurd hc (not_cleared_afterInit r)
  | receive => rcases hc with hc | hc <;> cases hc
  | handled p past state => exact absurd hc (not_cleared_handled _)
  | terminal => rcases hc with hc | hc <;> cases hc
  | dead hh => exact ⟨rfl, hroom hh rfl⟩
  | close hh => exact hs (.inl hh)
  | call info halive =>
      have hdead := (hs hc).1
      rw [halive] at hdead
      cases hdead
  | send hsends _ =>
      obtain ⟨hdead, hdrains⟩ := hs hc
      refine ⟨hdead, ?_⟩
      simp only [Drains, pending, hsends, Parties.put, List.length_append, List.length_cons,
        List.length_nil] at hdrains ⊢
      omega
  | check hreader =>
      obtain ⟨hdead, hdrains⟩ := hs hc
      refine ⟨hdead, ?_⟩
      rw [Drains, pending] at hdrains ⊢
      dsimp only
      rw [hdead, onTheWay_afterCheck_false]
      omega
  | read r hreader =>
      obtain ⟨hdead, hdrains⟩ := hs hc
      have hle := onTheWay_afterRead (α := α) r
      refine ⟨hdead, ?_⟩
      rw [Drains, pending, hreader, ReaderAt.onTheWay] at hdrains
      rw [Drains, pending]
      dsimp only
      omega
  | put hreader _ =>
      obtain ⟨hdead, hdrains⟩ := hs hc
      refine ⟨hdead, ?_⟩
      rw [Drains, pending, hreader, ReaderAt.onTheWay] at hdrains
      rw [Drains, pending]
      simp only [Parties.put, List.length_append, List.length_singleton, onTheWay_afterSend]
      omega

theorem draining_inv {s : Parties α} (h : Relation.ReflTransGen DrainingStep newParties s) :
    s.Cleared → s.alive = false ∧ s.Drains := by
  induction h with
  | refl =>
      rintro (hc | hc) <;> cases hc
  | tail _ hstep ih => exact hstep.drains ih

theorem Drains.not_stuck {s : Parties α} (h : s.Drains) : ¬s.Stuck := by
  rintro ⟨-, hfull, hsender⟩
  have hpos : 1 ≤ s.pending := by
    rw [pending]
    rcases hsender with hne | ⟨e, he⟩
    · have := List.length_pos_of_ne_nil hne
      omega
    · rw [he, ReaderAt.onTheWay]
      omega
  rw [Drains] at h
  rw [HasRoom] at hfull
  omega

/-! ## No room -/

theorem Step.fits {s s' : Parties α} (h : Step s s') (hs : s.eventChannel.length ≤ channelCap) :
    s'.eventChannel.length ≤ channelCap := by
  cases h with
  | init r =>
      rw [afterInit]
      split <;> exact hs
  | receive _ hchannel =>
      rw [hchannel, List.length_cons] at hs
      exact Nat.le_of_succ_le hs
  | send _ hroom =>
      rw [HasRoom] at hroom
      simp only [Parties.put, List.length_append, List.length_singleton]
      omega
  | put _ hroom =>
      rw [HasRoom] at hroom
      simp only [Parties.put, List.length_append, List.length_singleton]
      omega
  | handled | terminal | dead | close | call | check | read => exact hs

theorem steps_fit {s : Parties α} (h : Relation.ReflTransGen Step newParties s) :
    s.eventChannel.length ≤ channelCap := by
  induction h with
  | refl => exact Nat.zero_le _
  | tail _ hstep ih => exact hstep.fits ih

/-- With `handle` gone nobody receives, so more senders than there is room for end with one
of them stuck. -/
theorem sticks {s : Parties α} {n : Nat} (hdone : s.handle = .done)
    (hn : s.eventChannel.length + n = channelCap) (hfull : ¬s.Drains) :
    ∃ s', Relation.ReflTransGen Step s s' ∧ s'.Stuck := by
  induction n generalizing s with
  | zero =>
      have hroom : ¬s.HasRoom := by
        rw [HasRoom]
        omega
      cases hsends : s.sends with
      | cons info rest =>
          exact ⟨s, .refl, hdone, hroom, .inl (by rw [hsends]; exact List.cons_ne_nil _ _)⟩
      | nil =>
          rw [Drains, pending, hsends] at hfull
          cases hreader : s.reader with
          | send e => exact ⟨s, .refl, hdone, hroom, .inr ⟨e, hreader⟩⟩
          | read =>
              refine ⟨_, .single (.read .eof hreader), hdone, hroom, .inr ⟨_, rfl⟩⟩
          | idle | check | done =>
              rw [hreader, ReaderAt.onTheWay, List.length_nil] at hfull
              omega
  | succ n ih =>
      have hroom : s.HasRoom := by
        rw [HasRoom]
        omega
      cases hsends : s.sends with
      | nil =>
          rw [Drains, pending, hsends, List.length_nil] at hfull
          cases hreader : s.reader <;> rw [hreader, ReaderAt.onTheWay] at hfull <;> omega
      | cons info rest =>
          have hstep : Step s { s.put ⟨.customInfo, info⟩ with sends := [] ++ rest } :=
            .send hsends hroom
          have hfull' : ¬Drains { s.put ⟨.customInfo, info⟩ with sends := rest } := by
            simp only [Drains, pending, hsends, Parties.put, List.length_append, List.length_cons,
              List.length_nil] at hfull ⊢
            omega
          have hn' : (s.put ⟨.customInfo, info⟩).eventChannel.length + n = channelCap := by
            simp only [Parties.put, List.length_append, List.length_singleton]
            omega
          obtain ⟨s', hsteps, hstuck⟩ :=
            @ih { s.put ⟨.customInfo, info⟩ with sends := rest } hdone hn' hfull'
          exact ⟨s', .head hstep hsteps, hstuck⟩

/-- The same from where `handle` is about to clear the flag: it leaves first. -/
theorem sticks_dead {s : Parties α} (hfit : s.eventChannel.length ≤ channelCap)
    (hdead : s.handle = .dead) (hfull : ¬s.Drains) :
    ∃ s', Relation.ReflTransGen Step s s' ∧ s'.Stuck := by
  have hclear : Step s { s with alive := false, handle := .close } := .dead hdead
  have hclose : Step { s with alive := false, handle := .close }
      { s with alive := false, handle := .done } := .close rfl
  obtain ⟨s', hsteps, hstuck⟩ := @sticks _ { s with alive := false, handle := .done }
    (channelCap - s.eventChannel.length) rfl (Nat.add_sub_cancel' hfit) hfull
  exact ⟨s', .head hclear (.head hclose hsteps), hstuck⟩

/-- In every run in which the flag is cleared only while the channel has room for what is on
the way, nobody is ever stuck. And this is sharp: from any state where the flag is about to
be cleared and there is no such room, a run leads to somebody stuck. -/
theorem channel_drains :
    (∀ s : Parties α, Relation.ReflTransGen DrainingStep newParties s → ¬s.Stuck)
      ∧ ∀ s : Parties α, Relation.ReflTransGen Step newParties s → s.handle = .dead → ¬s.Drains →
        ∃ s', Relation.ReflTransGen Step s s' ∧ s'.Stuck := by
  refine ⟨?_, ?_⟩
  · intro s hrun hstuck
    exact (draining_inv hrun (.inr hstuck.1)).2.not_stuck hstuck
  · intro s hrun hdead hfull
    exact sticks_dead (steps_fit hrun) hdead hfull

/-- Any number of callers can find the worker alive, since the test is all they do
at first. -/
theorem steps_call {s : Parties α} (halive : s.alive = true) (info : Value α) (n : Nat) :
    Relation.ReflTransGen Step s { s with sends := List.replicate n info ++ s.sends } := by
  induction n with
  | zero => exact .refl
  | succ n ih =>
      refine ih.tail ?_
      have hcall : Step { s with sends := List.replicate n info ++ s.sends }
          { s with sends := info :: (List.replicate n info ++ s.sends) } := .call info halive
      rwa [List.replicate_succ, List.cons_append]

/-- The connection has ended, and `Terminal` is being called. -/
def leaving : Parties Nat := { newParties with handle := .terminal, reader := .done }

theorem steps_leaving : Relation.ReflTransGen Step newParties leaving := by
  have hinit : Step newParties (⟨true, [], .receive, .check, []⟩ : Parties Nat) :=
    .init (.result ⟨.ok, .nil⟩) rfl
  have hcheck :
      Step ⟨true, [], .receive, .check, []⟩ (⟨true, [], .receive, .read, []⟩ : Parties Nat) :=
    .check rfl
  have hread : Step ⟨true, [], .receive, .read, []⟩
      (⟨true, [], .receive, .send closeEvent, []⟩ : Parties Nat) := .read .eof rfl
  have hput : Step ⟨true, [], .receive, .send closeEvent, []⟩
      (⟨true, [closeEvent], .receive, .done, []⟩ : Parties Nat) := .put rfl (by decide)
  have hreceive : Step ⟨true, [closeEvent], .receive, .done, []⟩
      (⟨true, [], .handling closeEvent, .done, []⟩ : Parties Nat) := .receive rfl rfl
  have hhandled : Step ⟨true, [], .handling closeEvent, .done, []⟩ leaving :=
    @Step.handled Nat ⟨true, [], .handling closeEvent, .done, []⟩ closeEvent echo [] .nil rfl
  exact .head hinit (.head hcheck (.head hread (.head hput (.head hreceive (.single hhandled)))))

/-- 17 callers find the worker alive before the flag is cleared, one more than the channel
holds. -/
theorem channel_sticks : ∃ s : Parties Nat, Relation.ReflTransGen Step newParties s ∧ s.Stuck := by
  have hcalls := @steps_call Nat leaving rfl (.other 0) 17
  have hterminal : Step { leaving with sends := List.replicate 17 (.other 0) ++ leaving.sends }
      { leaving with handle := .dead, sends := List.replicate 17 (.other 0) ++ leaving.sends } :=
    .terminal rfl
  obtain ⟨s, hsteps, hstuck⟩ := @sticks_dead Nat
    { leaving with handle := .dead, sends := List.replicate 17 (.other 0) ++ leaving.sends }
    (by decide) rfl (by decide)
  exact ⟨s, (steps_leaving.trans hcalls).trans (.head hterminal hsteps), hstuck⟩

end Parties

/-! ## `readBytes` while the worker is alive -/

/-- `readBytes`, after `reads` calls of `conn.Read`, and the events it has sent. -/
structure Reading (α : Type) where
  reader : ReaderAt α
  reads : Nat
  events : List (Event α)

/-- One step, with the flag set and somebody receiving; read `i` returns `rs i`. -/
def Reading.next (rs : Nat → ReadResult) (s : Reading α) : Reading α :=
  match s.reader with
  | .idle => s
  | .check => { s with reader := afterCheck true }
  | .read => { s with reader := afterRead (rs s.reads), reads := s.reads + 1 }
  | .send e => { s with reader := afterSend e, events := s.events ++ [e] }
  | .done => s

/-- The first `n` steps of the reader. -/
def reading (rs : Nat → ReadResult) : Nat → Reading α
  | 0 => ⟨.check, 0, []⟩
  | n + 1 => (reading rs n).next rs

/-- Among the other parties the reader does the same, while it is at work, the flag is set
and there is room in the channel. -/
theorem Reading.next_step (rs : Nat → ReadResult) {s : Parties α} {r : Reading α}
    (hr : s.reader = r.reader) (hidle : r.reader ≠ .idle) (hdone : r.reader ≠ .done)
    (halive : s.alive = true) (hroom : s.HasRoom) : ∃ s' sent, Parties.Step s s'
      ∧ s'.reader = (r.next rs).reader ∧ (r.next rs).events = r.events ++ sent
      ∧ s'.eventChannel = s.eventChannel ++ sent := by
  obtain ⟨reader, reads, events⟩ := r
  dsimp only at hr hidle hdone
  cases reader with
  | idle => exact absurd rfl hidle
  | done => exact absurd rfl hdone
  | check =>
      refine ⟨_, [], .check hr, ?_, (List.append_nil _).symm, (List.append_nil _).symm⟩
      dsimp only
      rw [halive]
      rfl
  | read =>
      exact ⟨_, [], .read (rs reads) hr, rfl, (List.append_nil _).symm, (List.append_nil _).symm⟩
  | send e => exact ⟨_, [e], .put hr hroom, rfl, rfl, rfl⟩

/-- The reader leaves its loop, and has sent one `_EVENT_CONN_CLOSE`, after all data. -/
def ClosesOnce (α : Type) (rs : Nat → ReadResult) : Prop :=
  ∃ n, (reading rs n : Reading α).reader = .done ∧ ∃ data : List (Event α),
    (reading rs n).events = data ++ [closeEvent] ∧ ∀ e ∈ data, e.flag = .readByteFromConn

/-- The loop is left, or about to be. -/
def ReaderAt.Leaves : ReaderAt α → Prop
  | send e => e.flag = .connClose
  | done => True
  | idle => False
  | check => False
  | read => False

/-- Only `io.EOF` makes the reader leave: any other error falls through to the next turn. -/
theorem reading_leaves {rs : Nat → ReadResult} (n : Nat) :
    (reading rs n : Reading α).reader.Leaves → ∃ k, rs k = .eof := by
  induction n with
  | zero => exact False.elim
  | succ n ih =>
      rw [reading, Reading.next]
      cases hr : (reading rs n : Reading α).reader with
      | idle =>
          rw [hr] at ih
          dsimp only
          rw [hr]
          exact ih
      | check => exact False.elim
      | read =>
          dsimp only
          cases hread : rs (reading rs n : Reading α).reads with
          | eof => exact fun _ => ⟨_, hread⟩
          | error => exact False.elim
          | data buf =>
              intro h
              cases h
      | send e =>
          rw [hr] at ih
          dsimp only
          by_cases hclose : e.flag = .connClose
          · exact fun _ => ih hclose
          · rw [afterSend, if_neg hclose]
            exact False.elim
      | done =>
          rw [hr] at ih
          dsimp only
          rw [hr]
          exact ih

/-- As long as there is no `io.EOF` the reader comes to the next read, and has sent data
only. -/
theorem reading_reads {rs : Nat → ReadResult} {m : Nat} (hm : ∀ k < m, rs k ≠ .eof) :
    ∃ n, ∃ data : List (Event α), reading rs n = ⟨.read, m, data⟩
      ∧ ∀ e ∈ data, e.flag = .readByteFromConn := by
  induction m with
  | zero => exact ⟨1, [], rfl, fun e he => by cases he⟩
  | succ m ih =>
      obtain ⟨n, data, hn, hdata⟩ := ih fun k hk => hm k (Nat.lt_succ_of_lt hk)
      have h1 : reading rs (n + 1) = (⟨afterRead (rs m), m + 1, data⟩ : Reading α) := by
        rw [reading, hn]
        rfl
      cases hread : rs m with
      | eof => exact absurd hread (hm m (Nat.lt_succ_self m))
      | error =>
          rw [hread] at h1
          refine ⟨n + 2, data, ?_, hdata⟩
          rw [reading, h1]
          rfl
      | data buf =>
          rw [hread] at h1
          refine ⟨n + 3, data ++ [dataEvent buf], ?_, ?_⟩
          · rw [reading, reading, h1]
            rfl
          · intro e he
            rcases List.mem_append.mp he with he | he
            · exact hdata e he
            · rw [List.mem_singleton.mp he]
              rfl

/-- `readBytes` reports the end of the connection exactly if some read gives `io.EOF`: after
any other error it reads again. -/
theorem readBytes_closes_iff (rs : Nat → ReadResult) : ClosesOnce α rs ↔ ∃ k, rs k = .eof := by
  constructor
  · rintro ⟨n, hdone, -⟩
    refine reading_leaves (α := α) n ?_
    rw [hdone]
    trivial
  · intro heof
    obtain ⟨n, data, hn, hdata⟩ :=
      @reading_reads α rs (Nat.find heof) fun k hk => Nat.find_min heof hk
    have hrun :
        reading rs (n + 2) = (⟨.done, Nat.find heof + 1, data ++ [closeEvent]⟩ : Reading α) := by
      rw [reading, reading, hn]
      simp only [Reading.next, Nat.find_spec heof, afterRead]
      rfl
    exact ⟨n + 2, by rw [hrun], data, by rw [hrun], hdata⟩

/-- The connection has been reset, and every read fails: `readBytes` never leaves
its loop. -/
theorem readBytes_reads_on :
    (∀ n, (reading (fun _ => .error) n : Reading Nat).reader ≠ .done)
      ∧ ¬ClosesOnce Nat fun _ => .error := by
  have hreads : ∀ n, (reading (fun _ => .error) n : Reading Nat).reader ≠ .done := by
    intro n hdone
    obtain ⟨k, hk⟩ := @reading_leaves Nat (fun _ => .error) n (by rw [hdone]; trivial)
    cases hk
  refine ⟨hreads, ?_⟩
  rintro ⟨n, hdone, -⟩
  exact hreads n hdone

end Server

end Artorias
