import Mathlib.Data.List.Induction
import Mathlib.Tactic.Ring
import Artorias.ServerHost

/-!
# Runs of the socket server

A handler call goes to the end of the log; every other step leaves it, and moves
the bytes of one connection on. What is on the way through a worker is what its
`readBytes` holds, its channel, and what `handle` has received.
-/

namespace Artorias

namespace Server

variable {σ α : Type} {p : SharedProtocol σ α}

/-! ## The calls -/

section

variable {shared : σ} {q q' : Serial σ α} {log : List (Nat × Event α)} {i j : Nat} {e : Event α}

@[simp] theorem eventsOf_append (log more : List (Nat × Event α)) (i : Nat) :
    eventsOf (log ++ more) i = eventsOf log i ++ eventsOf more i := List.filterMap_append

@[simp] theorem eventsOf_same (i : Nat) (e : Event α) : eventsOf [(i, e)] i = [e] := by
  simp [eventsOf]

@[simp] theorem eventsOf_other (h : j ≠ i) (e : Event α) : eventsOf [(i, e)] j = [] := by
  simp [eventsOf, h.symm]

namespace Serial

@[simp] theorem after_state (q : Serial σ α) (i : Nat) (e : Event α) :
    (q.after p i e).state i = (turn (p.given q.shared) [] e (q.state i)).state :=
  Function.update_self ..

@[simp] theorem after_replies (q : Serial σ α) (i : Nat) (e : Event α) :
    (q.after p i e).replies i
      = q.replies i ++ (turn (p.given q.shared) [] e (q.state i)).writes.getD [] :=
  Function.update_self ..

@[simp] theorem after_finished (q : Serial σ α) (i : Nat) (e : Event α) :
    (q.after p i e).finished i = (turn (p.given q.shared) [] e (q.state i)).exits :=
  Function.update_self ..

theorem after_other (hj : j ≠ i) : (q.after p i e).state j = q.state j
    ∧ (q.after p i e).replies j = q.replies j ∧ (q.after p i e).finished j = q.finished j :=
  ⟨Function.update_of_ne hj .., Function.update_of_ne hj .., Function.update_of_ne hj ..⟩

theorem calls_append (log more : List (Nat × Event α)) :
    calls p shared (log ++ more) = (calls p shared log).bind fun q => more.foldlM (call p) q :=
  List.foldlM_append

theorem calls_snoc (h : calls p shared log = some q) (hfinished : q.finished i = false)
    (e : Event α) :
    calls p shared (log ++ [(i, e)]) = some (q.after p i e) := by
  rw [calls_append, h, Option.bind_some, List.foldlM_cons, call, hfinished]
  rfl

theorem calls_of_snoc {c : Nat × Event α} (h : calls p shared (log ++ [c]) = some q') :
    ∃ q, calls p shared log = some q ∧ q.finished c.1 = false ∧ q' = q.after p c.1 c.2 := by
  rw [calls_append] at h
  obtain ⟨q, hq, hc⟩ := Option.bind_eq_some_iff.mp h
  rw [List.foldlM_cons, call] at hc
  split at hc
  · cases hc
  · next hfinished =>
      cases hc
      exact ⟨q, hq, Bool.eq_false_iff.mpr hfinished, rfl⟩

theorem calls_none (h : calls p shared log = some q) (hi : eventsOf log i = []) :
    q.state i = p.initState ∧ q.finished i = false := by
  induction log using List.reverseRecOn generalizing q with
  | nil =>
      cases h
      exact ⟨rfl, rfl⟩
  | append_singleton log c ih =>
      obtain ⟨q0, hq0, -, rfl⟩ := calls_of_snoc h
      rw [eventsOf_append, List.append_eq_nil_iff] at hi
      have hj : i ≠ c.1 := by
        rintro rfl
        simp [eventsOf] at hi
      obtain ⟨hstate, -, hfinished⟩ := @after_other _ _ p q0 c.1 i c.2 hj
      rw [hstate, hfinished]
      exact ih hq0 hi.1

end Serial

end

/-! ## One connection -/

namespace Conn.Follows

variable {c : Conn α} {q : Serial σ α} {i : Nat} {es : List (Event α)}

/-- The goroutines of a connection move, and what they hold stays: as before, it follows the
calls in `es`. -/
theorem moves (h : c.Follows q i es) {ps : Parties α} (hdata : ps.data = c.parties.data)
    (hinit : ps.handle = .init ↔ c.parties.handle = .init)
    (hserving : ps.handle.Serving → c.parties.handle.Serving) :
    Conn.Follows { c with parties := ps } q i es where
  state := fun hne => h.state fun heq => hne (hinit.mpr heq)
  before := fun heq => h.before (hinit.mp heq)
  goesOn := fun hs => h.goesOn (hserving hs)
  received := by
    obtain ⟨lost, hsent, hlost⟩ := h.received
    exact ⟨lost, by dsimp only; rw [hdata, hsent], hlost⟩
  replied := h.replied
  allReplied := h.allReplied

/-- `handle` goes on behind its loop, with no event in its hands. -/
theorem leaves (h : c.Follows q i es) {ps : Parties α} (hevents : c.parties.handle.events = [])
    (hinit : c.parties.handle ≠ .init) (hevents' : ps.handle.events = [])
    (hinit' : ps.handle ≠ .init) (hserving : ¬ps.handle.Serving)
    (hchannel : ps.eventChannel = c.parties.eventChannel)
    (hreader : ps.reader = c.parties.reader) :
    Conn.Follows { c with parties := ps } q i es := by
  refine h.moves ?_ ⟨fun heq => absurd heq hinit', fun heq => absurd heq hinit⟩ fun hs =>
    absurd hs hserving
  rw [Parties.data, Parties.events, Parties.data, Parties.events, hevents, hevents', hchannel,
    hreader]

/-- A handler has been called for another connection, which this one does not see. -/
theorem other (h : c.Follows q i es) {j : Nat} (hj : i ≠ j) (e : Event α) :
    c.Follows (q.after p j e) i es where
  state := fun hne => (h.state hne).trans (Serial.after_other hj).1.symm
  before := h.before
  goesOn := fun hs => (Serial.after_other hj).2.2.trans (h.goesOn hs)
  received := h.received
  replied := by
    rw [(Serial.after_other hj).2.1]
    exact h.replied
  allReplied := fun hb => (h.allReplied hb).trans (Serial.after_other hj).2.1.symm

end Conn.Follows

@[simp] theorem handling_events (e : Event α) : (HandleAt.handling e).events = [e] := rfl

@[simp] theorem init_events : (HandleAt.init : HandleAt α).events = [] := rfl

@[simp] theorem receive_events : (HandleAt.receive : HandleAt α).events = [] := rfl

@[simp] theorem terminal_events : (HandleAt.terminal : HandleAt α).events = [] := rfl

@[simp] theorem sending_events (e : Event α) : (ReaderAt.send e).events = [e] := rfl

@[simp] theorem idle_events : (ReaderAt.idle : ReaderAt α).events = [] := rfl

@[simp] theorem check_events : (ReaderAt.check : ReaderAt α).events = [] := rfl

@[simp] theorem read_events : (ReaderAt.read : ReaderAt α).events = [] := rfl

@[simp] theorem leads_events (t : Turn α) : t.leads.events = [] := by
  cases t <;> rfl

@[simp] theorem afterCheck_events (alive : Bool) : (afterCheck alive : ReaderAt α).events = [] := by
  cases alive <;> rfl

@[simp] theorem afterSend_events (e : Event α) : (afterSend e).events = [] := by
  rw [afterSend]
  split <;> rfl

theorem leads_ne_init (t : Turn α) : t.leads ≠ .init := by
  cases t <;> simp [Turn.leads]

theorem leads_serving {t : Turn α} (h : t.leads.Serving) : t.exits = false := by
  cases t with
  | next => rfl
  | exit => exact False.elim h

namespace Conn.Follows

variable {c : Conn α} {q : Serial σ α} {i : Nat} {es : List (Event α)}

/-- The handler has been called for what `handle` has received: the turn leaves in the
connection what the call has come to in `q`. -/
theorem handled (h : c.Follows q i es) {e : Event α} (he : c.parties.handle = .handling e)
    (hwriting : c.writing = none) :
    Conn.Follows (c.turned (turn (p.given q.shared) [] e c.state)) (q.after p i e) i
      (es ++ [e]) := by
  have hstate : c.state = q.state i := h.state (by simp [he])
  have hall := h.allReplied
  rw [hwriting, Option.getD_none, List.append_nil] at hall
  rw [hstate]
  constructor
  · intro _
    rw [Serial.after_state]
    rfl
  · intro heq
    exact absurd heq (leads_ne_init _)
  · intro hs
    rw [Serial.after_finished]
    exact leads_serving hs
  · obtain ⟨lost, hsent, hlost⟩ := h.received
    refine ⟨lost, ?_, hlost⟩
    change c.sent = _
    rw [hsent]
    simp [Conn.turned, Conn.setHandle, Parties.data, Parties.events, he]
  · rw [Serial.after_replies]
    exact h.replied.trans (List.prefix_append _ _)
  · intro hb
    rw [Serial.after_replies, ← hall hb]
    rfl

end Conn.Follows

/-! ## Steps -/

/-- `handle` starts `readBytes` after `Init`, and writes only before it receives again. -/
structure Conn.Works (c : Conn α) : Prop where
  idle : c.parties.handle = .init → c.parties.reader = .idle
  writes : c.writing ≠ none → c.parties.handle = .receive

/-- A step that no handler call is part of: the log explains `c'` as it explains `c`. -/
def Conn.Quiet (p : SharedProtocol σ α) (c c' : Conn α) : Prop :=
  ∀ q : Serial σ α, ∀ i es, (es = [] → q.state i = p.initState ∧ q.finished i = false) →
    c.Follows q i es → c'.Follows q i es

section

variable {c c' : Conn α} {sh sh' : σ}

theorem turn_exit_writes (p : Protocol α) (e : Event α) (state : Value α)
    (h : (turn p [] e state).leads ≠ .receive) : (turn p [] e state).writes = none := by
  have hafter : ∀ call : Act α, call.written = none →
      ∀ r, (afterReply call state r).leads ≠ .receive →
      (afterReply call state r).writes = none := by
    intro call hcall r hr
    cases r with
    | panic | nil => simp [afterReply, Turn.writes, Turn.acts, hcall]
    | result reply =>
        obtain ⟨flag, bytes, newState⟩ := reply
        cases flag with
        | terminal => simp [afterReply, Turn.writes, Turn.acts, hcall]
        | reply | noReply => exact absurd rfl hr
  obtain ⟨flag, content⟩ := e
  cases flag with
  | connClose => rfl
  | other => rfl
  | customInfo => exact hafter _ rfl _ h
  | readByteFromConn =>
      cases content with
      | bytes buf => exact hafter _ rfl _ h
      | nil | runtimeError | other => rfl

theorem Conn.Step.works (h : c.Step p sh sh' c') (hc : c.Works) : c'.Works := by
  cases h with
  | init _ hinit =>
      refine ⟨fun heq => ?_, fun hw => ?_⟩
      · dsimp only [Parties.afterInit] at heq
        split at heq <;> cases heq
      · have := hc.writes hw
        rw [hinit] at this
        cases this
  | receive hh hw =>
      refine ⟨fun heq => ?_, fun hne => absurd hw hne⟩
      cases heq
  | handled hh =>
      refine ⟨fun heq => absurd heq (leads_ne_init _), fun hne => ?_⟩
      by_contra hr
      exact hne (turn_exit_writes _ _ _ hr)
  | write | writePart | writeFails => exact ⟨hc.idle, fun hne => absurd rfl hne⟩
  | terminal hh | dead hh | close hh =>
      refine ⟨fun heq => (by cases heq), fun hne => ?_⟩
      have := hc.writes hne
      rw [hh] at this
      cases this
  | send => exact ⟨hc.idle, hc.writes⟩
  | check hr | read hr | readEof hr | readError hr | put hr =>
      refine ⟨fun heq => ?_, hc.writes⟩
      have := hc.idle heq
      rw [hr] at this
      cases this

theorem Conn.World.works (h : c.World c') (hc : c.Works) : c'.Works := by
  cases h <;> exact ⟨hc.idle, hc.writes⟩

end

/-! ## Steps and the log -/

section

variable {c c' : Conn α} {sh sh' : σ}

theorem Conn.Works.init_quiet (hc : c.Works) (hinit : c.parties.handle = .init) :
    c.Quiet p { c with parties := c.parties.afterInit p.init, state := p.initState } := by
  intro q i es hnew h
  obtain ⟨hstate, hfinished⟩ := hnew (h.before hinit)
  have hdata : (c.parties.afterInit p.init).data = c.parties.data := by
    rw [Parties.afterInit]
    split <;> simp [Parties.data, Parties.events, hinit, hc.idle hinit]
  obtain ⟨lost, hsent, hlost⟩ := h.received
  refine ⟨fun _ => hstate.symm, fun heq => ?_, fun _ => hfinished, ⟨lost, ?_, hlost⟩, h.replied,
    h.allReplied⟩
  · dsimp only [Parties.afterInit] at heq
    split at heq <;> cases heq
  · dsimp only
    rw [hdata, hsent]

/-- `readBytes` moves, and takes bytes from what has arrived: nothing is lost between the
connection and the channel. -/
theorem Conn.Follows.reads {q : Serial σ α} {i : Nat} {es : List (Event α)} (h : c.Follows q i es)
    {ps : Parties α} {arrived : List (BitVec 8)} (hhandle : ps.handle = c.parties.handle)
    (hdata : ps.data ++ arrived = c.parties.data ++ c.arrived) :
    Conn.Follows { c with parties := ps, arrived := arrived } q i es where
  state := fun hne => h.state (by rwa [hhandle] at hne)
  before := fun heq => h.before (hhandle.symm.trans heq)
  goesOn := fun hs => h.goesOn (by rwa [hhandle] at hs)
  received := by
    obtain ⟨lost, hsent, hlost⟩ := h.received
    refine ⟨lost, ?_, hlost⟩
    dsimp only
    rw [hsent, List.append_assoc _ ps.data, hdata, List.append_assoc _ c.parties.data]
  replied := h.replied
  allReplied := h.allReplied

/-- A step is a handler call, or leaves the log as it is. -/
theorem Conn.Step.quiet (h : c.Step p sh sh' c') (hc : c.Works) :
    (∃ e, c.parties.handle = .handling e ∧ sh' = p.sharedAfter sh e c.state
      ∧ c' = c.turned (turn (p.given sh) [] e c.state)) ∨ sh' = sh ∧ c.Quiet p c' := by
  cases h with
  | handled hh => exact .inl ⟨_, hh, rfl, rfl⟩
  | init _ hinit => exact .inr ⟨rfl, hc.init_quiet hinit⟩
  | receive hh hw hchannel =>
      refine .inr ⟨rfl, fun q i es _ h => h.moves ?_ ?_ fun _ => ?_⟩
      · simp [Parties.data, Parties.events, hh, hchannel]
      · simp [hh]
      · rw [hh]
        trivial
  | write hw hb =>
      refine .inr ⟨rfl, fun q i es _ h => ?_⟩
      have hall := h.allReplied hb
      rw [hw, Option.getD_some, List.append_assoc] at hall
      refine ⟨h.state, h.before, h.goesOn, h.received, ?_, fun _ => ?_⟩
      · exact ⟨[], (List.append_nil _).trans hall⟩
      · dsimp only
        rw [Option.getD_none, List.append_nil, hall]
  | @writePart buf rest hw hb =>
      refine .inr ⟨rfl, fun q i es _ h => ?_⟩
      have hall := h.allReplied hb
      rw [hw, Option.getD_some] at hall
      obtain ⟨lost, hsent, hlost⟩ := h.received
      refine ⟨h.state, h.before, h.goesOn, ⟨lost, hsent, fun h => by cases h⟩, ⟨rest, ?_⟩,
        fun h => by cases h⟩
      dsimp only
      rw [← hall]
      simp
  | writeFails hw hb =>
      refine .inr ⟨rfl,
        fun q i es _ h => ⟨h.state, h.before, h.goesOn, h.received, h.replied, fun hb' => ?_⟩⟩
      rw [hb] at hb'
      cases hb'
  | terminal hh | dead hh | close hh =>
      refine .inr ⟨rfl, fun q i es _ h => h.leaves ?_ ?_ rfl ?_ id rfl rfl⟩
      · rw [hh]
        rfl
      · simp [hh]
      · simp
  | send hs hroom =>
      refine .inr ⟨rfl, fun q i es _ h => h.moves ?_ Iff.rfl id⟩
      simp [Parties.data, Parties.events, Parties.put, Event.data]
  | check hr =>
      refine .inr ⟨rfl, fun q i es _ h => h.moves ?_ Iff.rfl id⟩
      simp [Parties.data, Parties.events, hr]
  | read hr harr =>
      refine .inr ⟨rfl, fun q i es _ h => h.reads rfl ?_⟩
      simp [Conn.setReader, Parties.data, Parties.events, hr, harr, afterRead, Event.data,
        dataEvent]
  | readEof hr harr =>
      refine .inr ⟨rfl, fun q i es _ h => h.moves ?_ Iff.rfl id⟩
      simp [Parties.data, Parties.events, hr, afterRead, Event.data, closeEvent]
  | readError hr =>
      refine .inr ⟨rfl, fun q i es _ h => h.moves ?_ Iff.rfl id⟩
      simp [Parties.data, Parties.events, hr, afterRead]
  | put hr =>
      refine .inr ⟨rfl, fun q i es _ h => h.moves ?_ Iff.rfl id⟩
      simp [Parties.data, Parties.events, Parties.put, hr]

theorem Conn.World.quiet (h : c.World c') : c.Quiet p c' := by
  intro q i es _ hf
  obtain ⟨lost, hsent, hlost⟩ := hf.received
  cases h with
  | sends bs =>
      refine ⟨hf.state, hf.before, hf.goesOn, ?_, hf.replied, hf.allReplied⟩
      dsimp only [Conn.sends]
      split
      · next hb =>
          exact ⟨lost ++ bs, by rw [hsent, List.append_assoc],
            fun hb' => by rw [hb] at hb'; cases hb'⟩
      · next hb => exact ⟨[], by simp [hsent, hlost (Bool.eq_false_iff.mpr hb)], fun _ => rfl⟩
  | ends => exact ⟨hf.state, hf.before, hf.goesOn, ⟨lost, hsent, hlost⟩, hf.replied, hf.allReplied⟩
  | takes hunread =>
      refine ⟨hf.state, hf.before, hf.goesOn, ⟨lost, hsent, hlost⟩, ?_, fun hb => ?_⟩
      · dsimp only [Conn.takes]
        rw [List.append_assoc, ← hunread]
        exact hf.replied
      · dsimp only [Conn.takes]
        rw [← hf.allReplied hb, hunread]
        simp
  | breaks harr hunread =>
      obtain ⟨gone, harr⟩ := harr
      refine ⟨hf.state, hf.before, hf.goesOn, ⟨gone ++ lost, ?_, fun h => by cases h⟩, ?_,
        fun h => by cases h⟩
      · dsimp only [Conn.breaks]
        rw [hsent, ← harr]
        simp
      · exact ((List.prefix_append_right_inj _).mpr hunread).trans hf.replied
  | call info => exact hf.moves rfl Iff.rfl id

end

/-! ## Runs -/

def Host.Reach (p : SharedProtocol σ α) (shared : σ) (s : Host σ α) : Prop :=
  Relation.ReflTransGen (Host.Step p) (.start shared) s

section

variable {shared : σ} {s s' : Host σ α} {q : Serial σ α} {log : List (Nat × Event α)}

theorem newConn_works : (newConn : Conn α).Works := ⟨fun _ => rfl, fun h => absurd rfl h⟩

/-- One connection is replaced by one that the log explains as well, and so it explains the
server. -/
theorem Host.Follows.quiet (h : s.Follows q log) (hq : Serial.calls p shared log = some q) {i : Nat}
    {c : Conn α} (hc : (s.conns i).Quiet p c) : (s.setConn i c).Follows q log := by
  refine ⟨h.shared, fun j => ?_⟩
  by_cases hj : j = i
  · subst hj
    rw [Host.setConn_same]
    exact hc q j _ (Serial.calls_none hq) (h.conns j)
  · rw [Host.setConn_other s hj]
    exact h.conns j

theorem Host.Follows.handled (h : s.Follows q log) {i : Nat} {e : Event α}
    (hi : (s.conns i).parties.handle = .handling e) (hwriting : (s.conns i).writing = none) :
    Host.Follows { s.setConn i ((s.conns i).turned (turn (p.given s.shared) [] e (s.conns i).state))
      with shared := p.sharedAfter s.shared e (s.conns i).state } (q.after p i e)
        (log ++ [(i, e)]) := by
  have hstate : (s.conns i).state = q.state i := (h.conns i).state (by simp [hi])
  refine ⟨?_, fun j => ?_⟩
  · dsimp only
    rw [h.shared, hstate]
    rfl
  · rw [eventsOf_append]
    by_cases hj : j = i
    · subst hj
      rw [eventsOf_same, h.shared]
      dsimp only
      rw [Host.setConn_same]
      exact (h.conns j).handled hi hwriting
    · rw [eventsOf_other hj, List.append_nil]
      dsimp only
      rw [Host.setConn_other s hj]
      exact (h.conns j).other hj e

/-- The connections of `s` work, and the calls of some log explain it. -/
def Host.Explained (p : SharedProtocol σ α) (shared : σ) (s : Host σ α) : Prop :=
  (∀ i, (s.conns i).Works) ∧ ∃ log q, Serial.calls p shared log = some q ∧ s.Follows q log

theorem Host.setConn_works (hs : ∀ i, (s.conns i).Works) (i : Nat) {c : Conn α} (hc : c.Works)
    (j : Nat) :
    ((s.setConn i c).conns j).Works := by
  by_cases hj : j = i
  · subst hj
    rwa [Host.setConn_same]
  · rw [Host.setConn_other s hj]
    exact hs j

theorem Host.Explained.step (h : s.Explained p shared) (hstep : s.Step p s') :
    s'.Explained p shared := by
  obtain ⟨hworks, log, q, hq, hf⟩ := h
  cases hstep with
  | @world i c hworld =>
      exact ⟨Host.setConn_works hworks i (hworld.works (hworks i)), log, q, hq,
        hf.quiet hq hworld.quiet⟩
  | serves hserves =>
      cases hserves with
      | @accept i hacc =>
          have hquiet : (s.conns i).Quiet p { s.conns i with accepted := true } :=
            fun q j es _ h => ⟨h.state, h.before, h.goesOn, h.received, h.replied, h.allReplied⟩
          have hw := hworks i
          have hfollows := hf.quiet hq hquiet
          exact ⟨Host.setConn_works hworks i ⟨hw.idle, hw.writes⟩, log, q, hq, hfollows.shared,
            hfollows.conns⟩
      | retry => exact ⟨hworks, log, q, hq, hf.shared, hf.conns⟩
      | @worker i sh c hc =>
          have hsound := Host.setConn_works hworks i (hc.works (hworks i))
          rcases hc.quiet (hworks i) with ⟨e, he, rfl, rfl⟩ | ⟨rfl, hquiet⟩
          · have hwriting : (s.conns i).writing = none := by
              by_contra hne
              have hrec := (hworks i).writes hne
              rw [he] at hrec
              cases hrec
            have hfinished : q.finished i = false := (hf.conns i).goesOn (by rw [he]; trivial)
            exact ⟨hsound, _, _, Serial.calls_snoc hq hfinished e, hf.handled he hwriting⟩
          · exact ⟨hsound, log, q, hq, hf.quiet hq hquiet⟩

end

/-! ## The pauses of `NewSocketServer` -/

/-- `tempDelay` after `n` temporary errors of `Accept` in a row. -/
def delayAfter (n : Nat) : Nat := if n = 0 then 0 else min (2 ^ n * millisecond) maxDelay

theorem retryDelay_delayAfter (n : Nat) : retryDelay (delayAfter n) = delayAfter (n + 1) := by
  rcases n with _ | n
  · decide
  · have hpos : 0 < 2 ^ (n + 1) := Nat.two_pow_pos _
    have hms : 0 < millisecond := by decide
    have hmax : 0 < maxDelay := by decide
    have hprod : 0 < 2 ^ (n + 1) * millisecond := Nat.mul_pos hpos hms
    have hnext : 2 ^ (n + 2) * millisecond = 2 ^ (n + 1) * millisecond * 2 := by ring
    have hdelay : min (2 ^ (n + 1) * millisecond) maxDelay ≠ 0 := by omega
    simp only [retryDelay, delayAfter, Nat.succ_ne_zero, if_false, hdelay, hnext]
    split <;> omega

/-- The delays of `Accept` are doubled up to a second, and start again when a connection is
accepted. -/
theorem Host.Reach.tempDelay {shared : σ} {s : Host σ α} (h : s.Reach p shared) :
    ∃ n, s.tempDelay = delayAfter n := by
  induction h with
  | refl => exact ⟨0, rfl⟩
  | tail _ hstep ih =>
      obtain ⟨n, hn⟩ := ih
      cases hstep with
      | world => exact ⟨n, hn⟩
      | serves hserves =>
          cases hserves with
          | accept => exact ⟨0, rfl⟩
          | retry => exact ⟨n + 1, by rw [← retryDelay_delayAfter, ← hn]⟩
          | worker => exact ⟨n, hn⟩

/-! ## A run -/

end Server

end Artorias
