import Artorias.ServerRuns

/-!
# What a worker has still to do

`Conn.work` is a measure of it. Every step of a worker makes it less, as long as the
connection is neither closed nor reset (`Conn.Step.work_lt`), and a worker that has
anything left of what its client has sent, or is writing, can take a step whatever the
others do (`Conn.can_step`).
-/

namespace Artorias

namespace Server

variable {σ α : Type} {p : SharedProtocol σ α}

/-- What `readBytes` and `SendInfoTo` send. -/
def Event.Sound (ended : Bool) (e : Event α) : Prop :=
  match e.flag, e.content with
  | .readByteFromConn, .bytes buf => buf ≠ []
  | .customInfo, _ => True
  | .connClose, _ => ended = true
  | _, _ => False

/-- The goroutines of a worker stop only for one another: `handle` clears the flag only when
it is about to close the connection, `readBytes` has been started before the loop, and it is
done only if the flag is cleared or the client has closed its side. -/
structure Conn.Alert (c : Conn α) : Prop where
  events : ∀ e ∈ c.parties.events, e.Sound c.ended
  dead : c.parties.alive = false → c.parties.handle = .close ∨ c.parties.handle = .done
  started : c.parties.handle.Serving → c.parties.reader ≠ .idle
  stopped : c.parties.reader = .done → c.parties.alive = false ∨ c.ended = true

section

variable {c c' : Conn α} {sh sh' : σ}

theorem newConn_alert : (newConn : Conn α).Alert where
  events := fun e he => by cases he
  dead := fun h => by cases h
  started := False.elim
  stopped := fun h => by cases h

theorem Event.Sound.closed {ended : Bool} {e : Event α} (h : e.Sound ended)
    (hflag : e.flag = .connClose) :
    ended = true := by
  rw [Event.Sound, hflag] at h
  exact h

/-- A worker that has not come to closing the connection is alive. -/
theorem Conn.Alert.alive (h : c.Alert) (hne : c.parties.handle ≠ .close)
    (hne' : c.parties.handle ≠ .done) :
    c.parties.alive = true := by
  by_contra hdead
  exact (h.dead (Bool.eq_false_iff.mpr hdead)).elim hne hne'

theorem Conn.Step.alert (h : c.Step p sh sh' c') (hc : c.Works) (ha : c.Alert) : c'.Alert := by
  cases h with
  | init _ hinit =>
      have halive := ha.alive (by simp [hinit]) (by simp [hinit])
      have hidle := hc.idle hinit
      have hsub : ∀ e ∈ (c.parties.afterInit p.init).events, e ∈ c.parties.events := by
        intro e he
        rw [Parties.afterInit] at he
        split at he <;> simpa [Parties.events, hinit, hidle] using he
      have halive' : (c.parties.afterInit p.init).alive = true := by
        rw [Parties.afterInit]
        split <;> exact halive
      have hreader : (c.parties.afterInit p.init).handle.Serving →
          (c.parties.afterInit p.init).reader ≠ .idle := by
        rw [Parties.afterInit]
        split
        · simp
        · exact False.elim
      have hdone : (c.parties.afterInit p.init).reader ≠ .done := by
        rw [Parties.afterInit]
        split <;> simp [hidle]
      exact ⟨fun e he => ha.events e (hsub e he), fun hd => by simp [halive'] at hd, hreader,
        fun hd => absurd hd hdone⟩
  | receive hh _ hchannel =>
      have halive := ha.alive (by simp [hh]) (by simp [hh])
      have hserving : c.parties.handle.Serving := by
        rw [hh]
        trivial
      refine ⟨fun e he => ha.events e ?_, fun hd => ?_, fun _ => ha.started hserving, ha.stopped⟩
      · simpa [Parties.events, hh, hchannel] using he
      · rw [halive] at hd
        cases hd
  | handled hh =>
      have halive := ha.alive (by simp [hh]) (by simp [hh])
      have hserving : c.parties.handle.Serving := by
        rw [hh]
        trivial
      refine ⟨fun e he => ha.events e ?_, fun hd => ?_, fun _ => ha.started hserving, ha.stopped⟩
      · have he' : e ∈ c.parties.eventChannel ++ c.parties.reader.events := by
          simpa [Conn.turned, Conn.setHandle, Parties.events] using he
        rw [Parties.events, List.append_assoc]
        exact List.mem_append_right _ he'
      · change c.parties.alive = false at hd
        rw [halive] at hd
        cases hd
  | write | writePart | writeFails => exact ⟨ha.events, ha.dead, ha.started, ha.stopped⟩
  | terminal hh =>
      have halive := ha.alive (by simp [hh]) (by simp [hh])
      refine ⟨fun e he => ha.events e ?_, fun hd => ?_, fun hs => False.elim hs, ha.stopped⟩
      · rw [Parties.events, hh]
        exact he
      · change c.parties.alive = false at hd
        rw [halive] at hd
        cases hd
  | dead hh =>
      refine ⟨fun e he => ha.events e ?_, fun _ => .inl rfl, fun hs => False.elim hs,
        fun _ => .inl rfl⟩
      rw [Parties.events, hh]
      exact he
  | close hh =>
      refine ⟨fun e he => ha.events e ?_, fun _ => .inr rfl, fun hs => False.elim hs, ha.stopped⟩
      rw [Parties.events, hh]
      exact he
  | @send info =>
      refine ⟨fun e he => ?_, ha.dead, ha.started, ha.stopped⟩
      have he' : e ∈ c.parties.events ∨ e = ⟨.customInfo, info⟩ := by
        simp only [Parties.events, Parties.put, List.mem_append, List.mem_singleton] at he ⊢
        tauto
      rcases he' with he' | rfl
      · exact ha.events e he'
      · trivial
  | check hr =>
      refine ⟨fun e he => ha.events e ?_, ha.dead, fun hs => ?_, fun hd => .inl ?_⟩
      · simpa [Conn.setReader, Parties.events, hr] using he
      · change afterCheck c.parties.alive ≠ .idle
        rw [afterCheck]
        split <;> simp
      · change afterCheck c.parties.alive = .done at hd
        change c.parties.alive = false
        cases halive : c.parties.alive with
        | false => rfl
        | true =>
            rw [halive] at hd
            cases hd
  | @read buf rest hr _ hbuf =>
      refine ⟨fun e he => ?_, ha.dead, fun _ => by simp [Conn.setReader, afterRead],
        fun hd => by cases hd⟩
      have he' : e ∈ c.parties.events ∨ e = dataEvent buf := by
        simp only [Conn.setReader, Parties.events, afterRead, sending_events, List.mem_append,
          List.mem_singleton] at he ⊢
        tauto
      rcases he' with he' | rfl
      · exact ha.events e he'
      · exact hbuf
  | readEof hr _ hended =>
      refine ⟨fun e he => ?_, ha.dead, fun _ => by simp [Conn.setReader, afterRead],
        fun hd => by cases hd⟩
      have he' : e ∈ c.parties.events ∨ e = closeEvent := by
        simp only [Conn.setReader, Parties.events, afterRead, sending_events, List.mem_append,
          List.mem_singleton] at he ⊢
        tauto
      rcases he' with he' | rfl
      · exact ha.events e he'
      · exact hended
  | readError hr =>
      refine ⟨fun e he => ha.events e ?_, ha.dead, fun _ => by simp [Conn.setReader, afterRead],
        fun hd => by cases hd⟩
      simpa [Conn.setReader, Parties.events, hr, afterRead] using he
  | @put e hr =>
      have hsound : e.Sound c.ended := ha.events e (by simp [Parties.events, hr])
      refine ⟨fun e' he => ha.events e' ?_, ha.dead, fun _ => ?_, fun hd => .inr ?_⟩
      · simpa [Parties.events, Parties.put, hr] using he
      · dsimp only
        rw [afterSend]
        split <;> simp
      · dsimp only at hd
        rw [afterSend] at hd
        split at hd
        · next hflag => exact hsound.closed hflag
        · cases hd

theorem Conn.Step.ended (h : c.Step p sh sh' c') : c'.ended = c.ended := by
  cases h <;> rfl

theorem Conn.Step.unbroken (h : c.Step p sh sh' c') (hb : c'.broken = false) :
    c.broken = false := by
  cases h <;> first | exact hb | cases hb

theorem Event.Sound.mono {e : Event α} {ended : Bool} (h : e.Sound ended) : e.Sound true := by
  obtain ⟨flag, content⟩ := e
  cases flag with
  | connClose => rfl
  | customInfo => trivial
  | other => exact h
  | readByteFromConn => cases content <;> exact h

theorem Conn.World.alert (h : c.World c') (ha : c.Alert) : c'.Alert := by
  cases h with
  | sends | takes | breaks | call => exact ⟨ha.events, ha.dead, ha.started, ha.stopped⟩
  | ends => exact ⟨fun e he => (ha.events e he).mono, ha.dead, ha.started, fun _ => .inr rfl⟩

end

/-! ## The measure -/

def HandleAt.work : HandleAt α → Nat
  | init => 6
  | receive => 0
  | handling _ => 4
  | terminal => 3
  | dead => 2
  | close => 1
  | done => 0

def ReaderAt.work : ReaderAt α → Nat
  | idle => 0
  | check => 1
  | read => 0
  | send _ => 7
  | done => 0

/-- What is left to do for a worker. An event in the channel is less than one in the
hands of a sender, and that less than a byte that is to be read, so that every step makes
it less. -/
def Conn.work (c : Conn α) : Nat :=
  c.parties.handle.work + 5 * c.parties.eventChannel.length + c.parties.reader.work
    + 6 * c.parties.sends.length + 8 * c.arrived.length + (c.writing.elim 0 fun _ => 1)

section

variable {c c' : Conn α} {sh sh' : σ}

theorem afterSend_work (e : Event α) : (afterSend e).work ≤ 1 := by
  rw [afterSend]
  split <;> simp [ReaderAt.work]

theorem afterCheck_work (alive : Bool) : (afterCheck alive : ReaderAt α).work = 0 := by
  cases alive <;> rfl

theorem afterInit_work (ps : Parties α) (r : Outcome α (InitState α)) (hidle : ps.reader = .idle) :
    (ps.afterInit r).handle.work + (ps.afterInit r).reader.work ≤ 3
      ∧ (ps.afterInit r).eventChannel = ps.eventChannel ∧ (ps.afterInit r).sends = ps.sends := by
  rw [Parties.afterInit]
  split <;> simp [HandleAt.work, ReaderAt.work, hidle]

/-- A turn of the loop leads back to it with at most something to write, or out of it, and
both are less than the event that it was for. -/
theorem turn_work (p : Protocol α) (e : Event α) (state : Value α) :
    (turn p [] e state).leads.work + ((turn p [] e state).writes.elim 0 fun _ => 1) ≤ 3 := by
  have hwrites : ∀ o : Option (List (BitVec 8)), o.elim 0 (fun _ => 1) ≤ 1 := by
    intro o
    cases o <;> simp
  by_cases hleads : (turn p [] e state).leads = .receive
  · have hle := hwrites (turn p [] e state).writes
    rw [hleads, HandleAt.work]
    omega
  · rw [turn_exit_writes p e state hleads]
    cases ht : turn p [] e state with
    | next => simp [ht, Turn.leads] at hleads
    | exit => simp [Turn.leads, HandleAt.work]

/-- Every step of the worker of an open connection makes what is left to do less. -/
theorem Conn.Step.work_lt (h : c.Step p sh sh' c') (hc : c.Works) (hended : c.ended = false)
    (hbroken : c.broken = false) (hopen : c.parties.handle ≠ .done) : c'.work < c.work := by
  cases h with
  | init _ hinit =>
      obtain ⟨hle, hchannel, hsends⟩ := afterInit_work c.parties p.init (hc.idle hinit)
      have hwork : c.parties.handle.work = 6 := congrArg _ hinit
      simp only [Conn.work, hchannel, hsends]
      omega
  | receive hh _ hchannel =>
      have hwork : c.parties.handle.work = 0 := congrArg _ hh
      simp only [Conn.work, hchannel, HandleAt.work, List.length_cons]
      omega
  | @handled e hh =>
      have hle := turn_work (p.given sh) e c.state
      have hwork : c.parties.handle.work = 4 := congrArg _ hh
      simp only [Conn.work, Conn.turned, Conn.setHandle]
      omega
  | write hw | writePart hw | writeFails hw =>
      simp only [Conn.work, hw, Option.elim_some, Option.elim_none]
      omega
  | terminal hh | dead hh | close hh =>
      have hwork := congrArg HandleAt.work hh
      simp only [HandleAt.work] at hwork
      simp only [Conn.work, Conn.setHandle, hwork, HandleAt.work]
      omega
  | send hsends =>
      simp only [Conn.work, Parties.put, hsends, List.length_append, List.length_cons,
        List.length_nil]
      omega
  | check hr =>
      have hwork : c.parties.reader.work = 1 := congrArg _ hr
      have hwork' : (afterCheck c.parties.alive : ReaderAt α).work = 0 := afterCheck_work _
      simp only [Conn.work, Conn.setReader]
      omega
  | @read buf rest hr harr hbuf =>
      have hwork : c.parties.reader.work = 0 := congrArg _ hr
      have hpos := List.length_pos_iff.mpr hbuf
      simp only [Conn.work, Conn.setReader, harr, afterRead, ReaderAt.work, List.length_append]
      omega
  | readEof _ _ he =>
      rw [hended] at he
      cases he
  | readError _ he =>
      rcases he with he | he
      · rw [hbroken] at he
        cases he
      · exact absurd he hopen
  | @put e hr =>
      have hwork : c.parties.reader.work = 7 := congrArg _ hr
      have hle := afterSend_work e
      simp only [Conn.work, Parties.put, List.length_append, List.length_singleton]
      omega

/-- A worker in its loop that has anything left to do can take a step: whoever holds the
next thing to do waits for nobody who is gone. -/
theorem Conn.can_step (p : SharedProtocol σ α) (sh : σ) (ha : c.Alert) (hacc : c.accepted = true)
    (hhandle : c.parties.handle = .init ∨ c.parties.handle.Serving) (hended : c.ended = false)
    (hbusy : c.parties.data ≠ [] ∨ c.arrived ≠ [] ∨ c.writing ≠ none) :
    ∃ sh' c', c.Step p sh sh' c' := by
  cases hh : c.parties.handle with
  | init => exact ⟨_, _, .init hacc hh⟩
  | handling e => exact ⟨_, _, .handled hh⟩
  | terminal | dead | close | done =>
      rw [hh] at hhandle
      rcases hhandle with heq | hs
      · cases heq
      · exact False.elim hs
  | receive =>
      cases hw : c.writing with
      | some buf =>
          cases hb : c.broken with
          | false => exact ⟨_, _, .write hw hb⟩
          | true => exact ⟨_, _, .writeFails hw hb⟩
      | none =>
          cases hchannel : c.parties.eventChannel with
          | cons e es => exact ⟨_, _, .receive hh hw hchannel⟩
          | nil =>
              have hroom : c.parties.HasRoom := by
                rw [Parties.HasRoom, hchannel]
                exact Nat.zero_lt_succ 15
              have halive := ha.alive (by simp [hh]) (by simp [hh])
              have hserving : c.parties.handle.Serving := by
                rw [hh]
                trivial
              -- all that is left is with `readBytes`
              cases hr : c.parties.reader with
              | idle => exact absurd hr (ha.started hserving)
              | check => exact ⟨_, _, .check hr⟩
              | send e => exact ⟨_, _, .put hr hroom⟩
              | done =>
                  rcases ha.stopped hr with hd | hd
                  · rw [halive] at hd
                    cases hd
                  · rw [hended] at hd
                    cases hd
              | read =>
                  have hdata : c.parties.data = [] := by
                    simp [Parties.data, Parties.events, hh, hchannel, hr]
                  cases harr : c.arrived with
                  | cons b rest =>
                      exact ⟨_, _,
                        @Conn.Step.read _ _ p sh c [b] rest hr harr (List.cons_ne_nil _ _)
                        (by rw [List.length_singleton, readBuf]; omega)⟩
                  | nil => simp [hdata, harr, hw] at hbusy

end

end Server

end Artorias
