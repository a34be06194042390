import Artorias.RbTravel
import Artorias.WorkerDrops

/-!
# The events of one batch

`process_io` has the resources of all events from `epoll_wait`, and between two
of them a script runs that may close sockets. `batch_sound_iff` says when every
event still finds the resource it was for.
-/

namespace Artorias

/-- `a` is the resource in `w` that it was in `w₀`, and of the same thread. -/
def StillDenotes (w₀ w : MwWorker) (a : Addr) : Prop :=
  a = w₀.cfdRes ∨ ∃ r r', w₀.ress a = some r ∧ w.ress a = some r' ∧ r'.number = r.number
    ∧ r'.th = r.th

/-- Every event is dispatched on what its pointer was in `w₀`. -/
def BatchSound (lua : Lua) (w₀ : MwWorker) : List EpollEvent → MwWorker → Prop
  | [], _ => True
  | e :: es, w => StillDenotes w₀ w e.ptr
      ∧ ∀ w', Settles (fun k => dispatch lua k w e) (.ok w') → BatchSound lua w₀ es w'

/-- No event is for a resource whose socket has been closed or collected by a
script of an earlier event (`closed`). -/
def BatchSpares (lua : Lua) (w₀ : MwWorker) :
    List EpollEvent → MwWorker → (Addr → Prop) → Prop
  | [], _, _ => True
  | e :: es, w, closed => (e.ptr = w₀.cfdRes ∨ (w₀.ress e.ptr).isSome ∧ ¬closed e.ptr)
      ∧ ∀ w', Settles (fun k => dispatch lua k w e) (.ok w') →
        BatchSpares lua w₀ es w' fun a => closed a ∨ ∃ u ∈ eventDrops lua w e, HoldsRes w u a

/-- The worker between two turns of its loop. -/
inductive TurnReach (lua : Lua) : MwWorker → Prop where
  | start {w : MwWorker} : Begun w → TurnReach lua w
  | turn {w w' : MwWorker} {t : Turn} : TurnReach lua w →
      Settles (fun k => turnBody lua k w t) (.ok w') → TurnReach lua w'

/-! ## Numbers stay below the next one -/

def NumbersOld (w : MwWorker) : Prop := ∀ a r, w.ress a = some r → r.number < w.next

theorem NumbersOld.update {w w' : MwWorker} (h : NumbersOld w) {a : Addr} {o : Option AsThreadRes}
    (hress : w'.ress = Function.update w.ress a o) (hnext : w'.next = w.next)
    (ho : ∀ r, o = some r → r.number < w.next) : NumbersOld w' := by
  intro b r hr
  rw [hnext]
  rw [hress] at hr
  by_cases hb : b = a
  · subst hb
    rw [Function.update_self] at hr
    exact ho r hr
  · rw [Function.update_of_ne hb] at hr
    exact h b r hr

theorem recycleRes_old {w : MwWorker} (h : NumbersOld w) (a : Addr) :
    Meets (w.recycleRes a) NumbersOld AnyFault := by
  unfold MwWorker.recycleRes
  split
  · exact trivial
  · exact h.update rfl rfl nofun

theorem freeRes_old {w : MwWorker} (h : NumbersOld w) (a : Addr) :
    Meets (freeRes w a) NumbersOld AnyFault := by
  refine (res_any w a).bind fun r hr => ?_
  have hset : ∀ (w' : MwWorker) r', NumbersOld w' → w'.next = w.next → r'.number = r.number →
      NumbersOld (w'.setRes a r') := by
    intro w' r' hw' hnext hn
    refine hw'.update rfl rfl fun r2 hr2 => ?_
    cases hr2
    rw [hn, hnext]
    exact h a r hr
  have h1 := hset w { r with th := none } h rfl rfl
  have hclose : ∀ (w' : MwWorker) fd, NumbersOld w' → NumbersOld (w'.close fd)
      ∧ (w'.close fd).next = w'.next := by
    intro w' fd hw'
    unfold MwWorker.close
    split <;> exact ⟨hw', rfl⟩
  dsimp only
  split
  · exact hset _ _ (hclose _ r.d h1).1 (hclose _ r.d h1).2 rfl
  · exact h1

theorem Meets.foldlM_keeps {ι : Type} {P : MwWorker → Prop} {f : MwWorker → ι → WRun MwWorker}
    (hf : ∀ w x, P w → Meets (f w x) P AnyFault) (l : List ι) {w : MwWorker} (h : P w) :
    Meets (l.foldlM f w) P AnyFault :=
  Meets.foldlM (I := fun _ => P) (fun x _ w hw => hf w x hw) h

theorem releaseThread_old (lua : Lua) {w : MwWorker} (h : NumbersOld w) (th : Addr) :
    Meets (releaseThread lua w th) NumbersOld AnyFault := by
  have hfree : Meets (asthreadThFree lua w th) NumbersOld AnyFault := by
    unfold asthreadThFree
    split
    · exact trivial
    · refine (luaCollect_touches lua _).bind fun w1 h1 => (thread_any w1 th).bind fun t _ => ?_
      exact Meets.foldlM_keeps (fun w a hw => freeRes_old hw a) _ (h1.old h)
  refine hfree.bind fun w1 h1 => ?_
  have hmfd : Meets (recycleMfdRes w1 th) NumbersOld AnyFault := by
    refine (thread_any w1 th).bind fun t _ => ?_
    split
    · exact h1
    · exact recycleRes_old h1 _
  refine hmfd.bind fun w2 h2 => ?_
  unfold MwWorker.recycleThread
  split
  · exact trivial
  · exact h2

theorem visitor_snd {visit : Nat → MwWorker → Addr → WRun MwWorker} {k : Nat} {n : Addr}
    {m : RbMem Addr} {x : WRun MwWorker} {s : RbMem Addr × WRun MwWorker}
    (h : visitor visit k n (m, x) = .ok s) :
    s.2 = x >>= fun w => visit k { w with tm := { w.tm with nodes := m.nodes } } n := by
  cases x with
  | error f =>
      cases h
      rfl
  | ok w =>
      simp only [visitor] at h
      change s.2 = visit k { w with tm := { w.tm with nodes := m.nodes } } n
      split at h
      · cases h
        exact Eq.symm ‹_›
      · cases h
        exact Eq.symm ‹_›

/-- A traversal keeps any property that does not look at the nodes, if the visitor
keeps it. -/
theorem travelThreads_keeps {P : MwWorker → Prop}
    (hnodes : ∀ w nodes, P w → P { w with tm := { w.tm with nodes := nodes } })
    {visit : Nat → MwWorker → Addr → WRun MwWorker} {k : Nat}
    (hvisit : ∀ w n, P w → Meets (visit k w n) P AnyFault) {w : MwWorker} (h : P w)
    (root : Option Addr) : Meets (travelThreads visit k w root) P AnyFault := by
  have hvisitor : ∀ n m x s, Meets x P AnyFault → visitor visit k n (m, x) = .ok s →
      Meets s.2 P AnyFault := by
    intro n m x s hx hrun
    rw [visitor_snd hrun]
    exact hx.bind fun w hw => hvisit _ n (hnodes w m.nodes hw)
  unfold travelThreads
  cases htravel : rbTreePostorderTravel (visitor visit k) k (⟨root, w.tm.nodes⟩, .ok w) root with
  | error f => exact trivial
  | ok s =>
      have hok : Meets (.ok w) P AnyFault := h
      have hs : Meets s.2 P AnyFault :=
        rbTreePostorderTravel_keeps (P := fun x => Meets x P AnyFault) hvisitor hok htravel
      exact hs.bind fun w' hw' => hnodes w' _ hw'

theorem turnBody_old (lua : Lua) (k : Nat) {w : MwWorker} (h : NumbersOld w) (t : Turn) :
    Meets (turnBody lua k w t) NumbersOld AnyFault := by
  have hresume : ∀ w th args, NumbersOld w →
      Meets (threadResume lua k w th args) NumbersOld AnyFault := by
    intro w th args hw
    by_cases hst : (w.tm.threads th).status = .stop
    · refine (thread_any w th).bind fun t ht => ?_
      rw [ht, if_pos hst]
      exact hw
    · exact (threadResume_touches lua k hst args).imp fun w' h' => h'.old hw
  have hpass : ∀ (visit : Nat → MwWorker → Addr → WRun MwWorker) (p : Addr) (now : Int) w,
      (∀ w n, NumbersOld w → Meets (visit k w n) NumbersOld AnyFault) → NumbersOld w →
      Meets (ofTree (asthreadRemoveTimeoutThreads k w.tm p now) >>= fun s =>
        travelThreads visit k { w with tm := s.1 } s.2) NumbersOld AnyFault :=
    fun visit p now w hv hw => (any_meets _).bind fun s _ =>
      travelThreads_keeps (w := { w with tm := s.1 }) (fun _ _ hw => hw) hv hw s.2
  refine Meets.bind (Q := NumbersOld)
    (Meets.foldlM_keeps (fun w e hw => ?_) t.events h) fun w1 h1 =>
    Meets.bind (Q := NumbersOld) (hpass _ ioPool t.nowIo w1 (fun w n hw => ?_) h1) fun w2 h2 =>
    Meets.bind (Q := NumbersOld)
      (hpass _ sleepPool t.nowSleep w2 (fun w n hw => ?_) h2) fun w3 h3 =>
    Meets.foldlM_keeps (fun w th hw => releaseThread_old lua hw th) _ h3
  · refine (dispatch_touches lua k w e).imp fun w' h' => ?_
    obtain ⟨i, j, h'⟩ := h'
    exact h'.old hw
  · refine (thread_any w n).bind fun t _ => ?_
    split
    · exact hw
    · exact (thRemoveResFromEpfd_sameRess w n).bind fun w' h' => hresume _ _ _ (h'.touches.old hw)
  · refine (thread_any w n).bind fun t _ => ?_
    split
    · exact hw
    · exact hresume _ _ _ hw

theorem TurnReach.old {lua : Lua} {w : MwWorker} (h : TurnReach lua w) : NumbersOld w := by
  induction h with
  | start h =>
      intro a r hr
      rw [h.ress a] at hr
      cases hr
  | turn _ hrun ih =>
      obtain ⟨k, hk⟩ := hrun
      exact (turnBody_old lua k ih _).of_ok (hk k (Nat.le_refl k))

/-! ## The batch -/

/-- What the events so far have left of the resources of `w₀`. -/
structure BatchAt (w₀ w : MwWorker) (closed : Addr → Prop) : Prop where
  next : w₀.next ≤ w.next
  kept : ∀ a r, w₀.ress a = some r → ¬closed a →
    ∃ r', w.ress a = some r' ∧ r'.number = r.number ∧ r'.th = r.th
  gone : ∀ a, (w₀.ress a).isSome → closed a → ∀ r', w.ress a = some r' → w₀.next ≤ r'.number

theorem BatchAt.denotes_iff {w₀ w : MwWorker} {closed : Addr → Prop} (h : BatchAt w₀ w closed)
    (hold : NumbersOld w₀) (a : Addr) :
    StillDenotes w₀ w a ↔ a = w₀.cfdRes ∨ (w₀.ress a).isSome ∧ ¬closed a := by
  refine or_congr_right ⟨?_, ?_⟩
  · intro hd
    obtain ⟨r, r', hr, hr', hn, -⟩ := hd
    have hs : (w₀.ress a).isSome := by
      rw [hr]
      rfl
    refine ⟨hs, ?_⟩
    intro hc
    have hle := h.gone a hs hc r' hr'
    have hlt := hold a r hr
    omega
  · rintro ⟨hs, hc⟩
    obtain ⟨r, hr⟩ := Option.isSome_iff_exists.mp hs
    obtain ⟨r', hr', hn, hth⟩ := h.kept a r hr hc
    exact ⟨r, r', hr, hr', hn, hth⟩

theorem BatchAt.step {w₀ w w' : MwWorker} {closed : Addr → Prop} (h : BatchAt w₀ w closed)
    {D : List Addr} {i : Nat} {j : BitVec 32} (ht : Touches w w' D i j) :
    BatchAt w₀ w' fun a => closed a ∨ ∃ u ∈ D, HoldsRes w u a := by
  refine ⟨Nat.le_trans h.next ht.next, ?_, ?_⟩
  · intro a r hr hc
    rw [not_or] at hc
    obtain ⟨r1, hr1, hn1, hth1⟩ := h.kept a r hr hc.1
    obtain ⟨⟨r', hr', hn', hth'⟩, -⟩ := ht.keeps a r1 hr1 fun u hu hua => hc.2 ⟨u, hu, hua⟩
    exact ⟨r', hr', hn'.trans hn1, hth'.trans hth1⟩
  · intro a hs hc r' hr'
    rcases hc with hc | ⟨u, hu, hua⟩
    · rcases ht.fresh a r' hr' with ⟨r1, hr1, hn1⟩ | hnew
      · rw [← hn1]
        exact h.gone a hs hc r1 hr1
      · exact Nat.le_trans h.next hnew.1
    · exact Nat.le_trans h.next (ht.dropped u a hu hua r' hr')

theorem BatchAt.sound_iff {lua : Lua} {w₀ : MwWorker} (hold : NumbersOld w₀)
    (events : List EpollEvent) : ∀ {w closed}, BatchAt w₀ w closed →
    (BatchSound lua w₀ events w ↔ BatchSpares lua w₀ events w closed) := by
  induction events with
  | nil => exact fun _ => .rfl
  | cons e es ih =>
      intro w closed h
      refine and_congr (h.denotes_iff hold e.ptr)
        (forall_congr' fun w' => imp_congr_right fun hrun => ?_)
      obtain ⟨k, hk⟩ := hrun
      obtain ⟨i, j, ht⟩ := (dispatch_touches lua k w e).of_ok (hk k (Nat.le_refl k))
      exact ih (h.step ht)

/-- `stop_threads->n = 0`, before `process_io`. -/
def batchStart (w : MwWorker) : MwWorker := { w with stopThreads := [] }

/-- In every batch each event finds what its pointer was when `epoll_wait` returned, if and
only if its socket has not been closed by the script of an earlier event: only then has its
block been recycled in between. -/
theorem batch_sound_iff {lua : Lua} {w : MwWorker} (h : TurnReach lua w)
    (events : List EpollEvent) :
    BatchSound lua (batchStart w) events (batchStart w)
      ↔ BatchSpares lua (batchStart w) events (batchStart w) fun _ => False :=
  BatchAt.sound_iff (show NumbersOld (batchStart w) from h.old) events
    ⟨Nat.le_refl _, fun _ r hr _ => ⟨r, hr, rfl, rfl⟩, fun _ _ hc => hc.elim⟩

/-- A script that makes a socket and sleeps, and closes it when it is woken. -/
def closingLua : Lua := fun n _ =>
  match n with
  | 1 => ⟨[], [.socketNew 30 (some 21) (some 5)],
      .yield [.integer lasSYieldForSleep, .integer 5] .script, 0⟩
  | 2 => ⟨[], [.close 30], .yield [.integer lasSYieldForSleep, .integer 5] .script, 0⟩
  | _ => ⟨[], [], .ok, 0⟩

def closingTurn : Turn := ⟨[⟨epollIn, 0, [⟨4, some 10, true, some 20⟩], 0⟩], 0, 0⟩

/-- The worker when the script sleeps. -/
def closingWorker : MwWorker :=
  (turnBody closingLua 8 startWorker closingTurn).toOption.getD startWorker

theorem closingWorker_reach : TurnReach closingLua closingWorker := by
  refine .turn (t := closingTurn) (.start startWorker_begun) ⟨8, ?_⟩
  intro k hk
  obtain ⟨j, rfl⟩ := Nat.exists_eq_add_of_le' hk
  rfl

/-- Both connections of the thread hang up, the accepted one first. -/
def hangUps : List EpollEvent := [⟨epollHup, 20, [], 0⟩, ⟨epollHup, 21, [], 0⟩]

/-- The other way round, the script closes the socket after its event has been dispatched,
and the event that follows is for the other resource. -/
theorem batch_sound_socketFirst :
    BatchSound closingLua (batchStart closingWorker) [⟨epollHup, 21, [], 0⟩, ⟨epollHup, 20, [], 0⟩]
      (batchStart closingWorker) := by
  refine (batch_sound_iff closingWorker_reach _).mpr ⟨.inr ⟨rfl, fun h => h⟩, fun w' _ =>
    ⟨.inr ⟨rfl, ?_⟩, fun _ _ => trivial⟩⟩
  rintro (h | ⟨u, hu, n, hn⟩)
  · exact h
  · have hdrops : eventDrops closingLua (batchStart closingWorker) ⟨epollHup, 21, [], 0⟩ = [30] :=
      rfl
    rw [hdrops] at hu
    obtain rfl := List.mem_singleton.mp hu
    cases hn

/-- The worker after the first of the two. -/
def closedWorker : MwWorker :=
  (dispatch closingLua 8 (batchStart closingWorker) ⟨epollHup, 20, [], 0⟩).toOption.getD startWorker

/-- The script of the first event closes the socket, and the second event is dispatched to
`handle_fd_error` on a recycled block. -/
theorem batch_not_sound : TurnReach closingLua closingWorker
    ∧ (∀ e ∈ hangUps, ∃ fd ev, closingWorker.epoll fd = some (ev, e.ptr))
    ∧ ¬BatchSound closingLua (batchStart closingWorker) hangUps (batchStart closingWorker) := by
  refine ⟨closingWorker_reach, ?_, ?_⟩
  · intro e he
    rcases List.mem_cons.mp he with rfl | he
    · exact ⟨4, 0, rfl⟩
    · obtain rfl := List.mem_singleton.mp he
      exact ⟨5, 0, rfl⟩
  · intro h
    have hrun : Settles (fun k => dispatch closingLua k (batchStart closingWorker)
        ⟨epollHup, 20, [], 0⟩) (.ok closedWorker) := by
      refine ⟨8, ?_⟩
      intro k hk
      obtain ⟨j, rfl⟩ := Nat.exists_eq_add_of_le' hk
      rfl
    have hnone : closedWorker.ress 21 = none := rfl
    rcases (h.2 closedWorker hrun).1 with hcfd | ⟨r, r', -, hr', -⟩
    · exact absurd hcfd (by decide)
    · rw [hnone] at hr'
      cases hr'

end Artorias
