import Artorias.WorkerBatch

/-!
# What `stop_threads` has room for

`asthread_th_add_to_array` does not look at the size of the array. A thread is
added when its script ends, so what decides is how many scripts end in one turn
of the loop, be it under `handle_accept`, for another event or in one of the
two passes: `turnStops`. `turnBody_filled` says that the array has got one entry
for each of them, or has run over its block; `stopThreads_fit` is about all
turns, and about the `_MAX_EVENTS` slots that the array was made for. The block
is larger (`stopSlots_block`): between the two bounds the worker goes on, with
entries past the end of its array.
-/

namespace Artorias

/-! ## Scripts that end -/

/-- 1 if `thread_resume` stops the thread: the script has returned or failed,
or has yielded what the worker does not know. -/
def LuaRun.stops (run : LuaRun) : Nat :=
  match run.result with
  | .yield T _ =>
      if YieldsFor T 4 lasSYieldForIo ∨ YieldsFor T 2 lasSYieldForSleep
        ∨ YieldsFor T 2 lasSYieldForEv then 0 else 1
  | .ok | .error => 1

/-- The same for `thread_resume`, which leaves stopped threads alone. -/
def resumeStops (lua : Lua) (w : MwWorker) (th : Addr) (args : LuaStack) : Nat :=
  if (w.tm.threads th).status = .stop then 0 else (lua w.turn args).stops

/-- How many scripts end under `handle_accept`. -/
def connStops (lua : Lua) : Nat → BitVec 32 → List Conn → Nat
  | _, _, [] => 0
  | turn, curTid, c :: conns =>
      if c.Makes curTid then
        (lua (turn + 1) []).stops + connStops lua (turn + 2) (curTid + 1) conns
      else connStops lua (turn + 1) (if c.lthread then curTid + 1 else curTid) conns

/-- The same for `handle_fd_read`, `handle_fd_write` and `handle_fd_error`. -/
def fdStops (lua : Lua) (w : MwWorker) (res : Addr) (args : LuaStack) : Nat :=
  match (w.ress res).bind AsThreadRes.th with
  | none => 0
  | some th => resumeStops lua w th args

/-- How many scripts end for one event, whichever handler it is given to. -/
def eventStops (lua : Lua) (w : MwWorker) (e : EpollEvent) : Nat :=
  e.choose w 0 (connStops lua w.turn w.curTid e.conns) (fdStops lua w e.ptr)

/-- The count of the state that is reached, and none after a fault. -/
def onward (x : WRun MwWorker) (f : MwWorker → Nat) : Nat :=
  match x with
  | .ok w => f w
  | .error _ => 0

/-- How many scripts end for all events of a turn. -/
def ioStops (lua : Lua) (k : Nat) : List EpollEvent → MwWorker → Nat
  | [], _ => 0
  | e :: es, w => eventStops lua w e + onward (dispatch lua k w e) (ioStops lua k es)

/-- The same for the pass over a pool; the threads are those that the traversal
comes to. -/
def passStops (lua : Lua) (visit : Nat → MwWorker → Addr → WRun MwWorker) (code : Int) (k : Nat)
    (w : MwWorker) (p : Addr) (now : Int) : Nat :=
  match asthreadRemoveTimeoutThreads k w.tm p now with
  | .error _ => 0
  | .ok (tm, root) =>
      match rbTreePostorderTravel
        (counted (visitor visit k) fun th x => onward x fun w =>
          resumeStops lua w th [.integer code])
        k (⟨root, tm.nodes⟩, .ok { w with tm := tm }, 0) root with
      | .error _ => 0
      | .ok s => s.2.2

/-- How many scripts end in one turn of the loop. -/
def turnStops (lua : Lua) (k : Nat) (w : MwWorker) (t : Turn) : Nat :=
  let w := { w with stopThreads := [] }
  ioStops lua k t.events w + onward (processIo lua k w t.events) fun w =>
    passStops lua (pIoTimeoutThread lua) lasSResumeIoTimeout k w ioPool t.nowIo
      + onward (processIoTimeout lua k w t.nowIo) fun w =>
        passStops lua (pSleepThread lua) lasSResumeSleep k w sleepPool t.nowSleep

/-! ## How far the array is filled -/

/-- `n` threads have been stopped: the array has them all, or it has run over
its block. -/
def Filled (n : Nat) (x : WRun MwWorker) : Prop :=
  Meets x (fun w => w.stopThreads.length = n ∧ n ≤ stopSlots) fun e => e = .overflow → stopSlots < n

/-- `stop_threads` is not written. -/
def KeepsStops (w : MwWorker) (x : WRun MwWorker) : Prop :=
  Meets x (fun w' => w'.stopThreads = w.stopThreads) (· ≠ .overflow)

theorem Meets.keepsStops {w : MwWorker} {x : WRun MwWorker} (h : Meets x (SameSched w) LocalFault) :
    KeepsStops w x :=
  (h.imp fun _ hw => hw.stopThreads).imp_error fun _ => LocalFault.ne_overflow

namespace Filled

variable {n d : Nat} {w : MwWorker} {x : WRun MwWorker}

theorem keeps (h : Filled n (.ok w)) (hx : KeepsStops w x) : Filled n x := by
  refine Meets.imp (hx.imp_error fun e he heq => absurd heq he) fun w' hw' => ?_
  rw [hw']
  exact h

theorem bind {f : MwWorker → WRun MwWorker} (h : Filled n x)
    (hf : ∀ w, x = .ok w → Filled n (.ok w) → Filled (n + d) (f w)) : Filled (n + d) (x >>= f) := by
  cases x with
  | ok w => exact hf w rfl h
  | error e => exact fun he => Nat.lt_of_lt_of_le (h he) (Nat.le_add_right n d)

/-- The count goes on with the state: what is counted in two parts is counted in their
composition. -/
theorem onward {f : MwWorker → WRun MwWorker} {g : MwWorker → Nat} (h : Filled n x)
    (hf : ∀ w, x = .ok w → Filled n (.ok w) → Filled (n + g w) (f w)) :
    Filled (n + Artorias.onward x g) (x >>= f) := by
  cases x with
  | ok w => exact hf w rfl h
  | error e => exact h

end Filled

theorem ofTree_meets {α : Type} (x : CRun α) :
    Meets (ofTree x) (fun a => x = .ok a) (· ≠ .overflow) := by
  cases x with
  | ok a => exact rfl
  | error f => exact nofun

theorem thread_keeps (w : MwWorker) (th : Addr) :
    Meets (w.thread th) (fun t => t = w.tm.threads th) (· ≠ .overflow) :=
  ((w.thread_meets th).imp fun _ h => h.1).imp_error fun _ => LocalFault.ne_overflow

theorem delFromPool_keeps (k : Nat) (w : MwWorker) (th : Addr) :
    KeepsStops w (delFromPool k w th) :=
  (ofTree_meets _).bind fun _ _ => rfl

theorem addToPool_keeps (k : Nat) (w : MwWorker) (th p : Addr) :
    KeepsStops w (addToPool k w th p) :=
  (ofTree_meets _).bind fun _ _ => rfl

theorem thYieldForSleep_keeps (k : Nat) (w : MwWorker) (th : Addr) (T : LuaStack) (now : Int) :
    KeepsStops w (thYieldForSleep k w th T now) :=
  (thread_keeps w th).bind fun _ _ => (addToPool_keeps k _ th _).imp fun _ h => h

theorem thYieldForIo_keeps (k : Nat) (w : MwWorker) (th : Addr) (T : LuaStack) (now : Int)
    (kont : Kont) : KeepsStops w (thYieldForIo k w th T now kont) := by
  refine thYieldForIo_meets (Q := fun w1 => w1.stopThreads = w.stopThreads) (by decide)
    (fun et => ?_)
    fun w1 a ev h1 _ => ?_
  · exact (thread_keeps w th).bind fun _ _ => (addToPool_keeps k _ th _).imp fun _ h => h
  · exact (asthreadResEvAdd_same (noteWait w1 th a kont) a ev).keepsStops.imp fun _ h => h.trans h1

section

variable {lua : Lua} {k n : Nat} {w : MwWorker} {th : Addr}

theorem asthreadThToStop_filled (h : Filled n (.ok w)) :
    Filled (n + 1) (asthreadThToStop k w th) := by
  refine Meets.bind ((thread_keeps w th).imp_error fun _ he heq => absurd heq he) fun t _ => ?_
  refine Meets.bind ((ofTree_meets _).imp_error fun _ he heq => absurd heq he) fun s _ => ?_
  obtain ⟨hlen, -⟩ := h
  dsimp only
  split
  · rename_i hfull
    have hle : stopSlots ≤ n := hlen ▸ hfull
    exact fun _ => Nat.lt_succ_of_le hle
  · rename_i hroom
    have hlt : ¬stopSlots ≤ n := hlen ▸ hroom
    exact ⟨by simp [MwWorker.setThread, hlen], Nat.lt_of_not_le hlt⟩

theorem afterResume_filled (h : Filled n (.ok w)) (run : LuaRun) :
    Filled (n + run.stops) (afterResume k w th run) := by
  unfold afterResume LuaRun.stops
  cases run.result with
  | yield T kont =>
      dsimp only
      by_cases hio : YieldsFor T 4 lasSYieldForIo
      · simp only [if_pos hio, if_pos (Or.inl hio)]
        exact h.keeps (thYieldForIo_keeps k w th T _ kont)
      by_cases hsleep : YieldsFor T 2 lasSYieldForSleep
      · simp only [if_neg hio, if_pos hsleep, if_pos (Or.inr (Or.inl hsleep))]
        exact h.keeps (thYieldForSleep_keeps k w th T _)
      by_cases hev : YieldsFor T 2 lasSYieldForEv
      · simp only [if_neg hio, if_neg hsleep, if_pos hev, if_pos (Or.inr (Or.inr hev))]
        exact h.keeps (thYieldForSleep_keeps k w th T _)
      · have hnone : ¬(YieldsFor T 4 lasSYieldForIo ∨ YieldsFor T 2 lasSYieldForSleep
            ∨ YieldsFor T 2 lasSYieldForEv) :=
          not_or.mpr ⟨hio, not_or.mpr ⟨hsleep, hev⟩⟩
        simp only [if_neg hio, if_neg hsleep, if_neg hev, if_neg hnone]
        exact asthreadThToStop_filled h
  | ok => exact asthreadThToStop_filled h
  | error => exact asthreadThToStop_filled h

/-- A thread that is in the array already is left alone, and is not counted again. -/
theorem Filled.unlessStopped (h : Filled n (.ok w)) {args : LuaStack}
    {f : AsThread → WRun MwWorker} (hf : (w.tm.threads th).status ≠ .stop →
      Filled (n + resumeStops lua w th args) (f (w.tm.threads th))) :
    Filled (n + resumeStops lua w th args)
      (w.thread th >>= fun t => if t.status = .stop then .ok w else f t) := by
  refine Meets.bind ((thread_keeps w th).imp_error fun _ he heq => absurd heq he) fun t ht => ?_
  subst ht
  by_cases hst : (w.tm.threads th).status = .stop
  · rw [if_pos hst, resumeStops, if_pos hst]
    exact h
  · rw [if_neg hst]
    exact hf hst

theorem threadResume_filled (h : Filled n (.ok w)) (args : LuaStack) :
    Filled (n + resumeStops lua w th args) (threadResume lua k w th args) := by
  refine h.unlessStopped fun hst => ?_
  rw [resumeStops, if_neg hst]
  let w1 : MwWorker := { w with turn := w.turn + 1, waits := Function.update w.waits th none }
  have hacts : KeepsStops w1 ((lua w.turn args).acts.foldlM (runAct th) w1) :=
    (SameSched.foldlM (runAct_same th) _ w1).keepsStops
  have h1 : Filled n (.ok w1) := h
  exact (h1.keeps hacts).bind fun w2 _ h2 => afterResume_filled h2 _

/-! ## The handlers -/

theorem newThread_stops (lua : Lua) (w : MwWorker) (c : Conn) :
    Meets (newThread lua w c) (fun p => p.1.stopThreads = w.stopThreads) (· ≠ .overflow) := by
  refine ((newThread_made lua w c).imp ?_).imp_error fun _ => LocalFault.ne_overflow
  intro p hp
  rcases hp with ⟨-, hsame⟩ | ⟨th, t, -, ⟨-, hsame⟩ | ⟨-, -, _, hsame⟩⟩
  · exact hsame.stopThreads
  · exact hsame.stopThreads
  · exact hsame.stopThreads

theorem acceptConn_filled (h : Filled n (.ok w)) (c : Conn) :
    Filled (n + if c.Makes w.curTid then (lua (w.turn + 1) []).stops else 0)
      (acceptConn lua k w c) := by
  have hmade : Meets (newThread lua w c) (Made w) AnyFault :=
    (newThread_made lua w c).imp_error fun _ _ => trivial
  have hall := ((newThread_stops lua w c).and (newThread_touches lua w c)).and hmade
  refine Meets.bind (hall.imp_error fun _ he heq => absurd heq he) fun p hp => ?_
  obtain ⟨⟨hstop, htouch, hmakes⟩, hcase⟩ := hp
  obtain ⟨w1, o⟩ := p
  have h1 : Filled n (.ok w1) := by
    obtain ⟨hlen, hle⟩ := h
    exact ⟨(congrArg List.length hstop).trans hlen, hle⟩
  have hnone : o = none →
      Filled (n + if c.Makes w.curTid then (lua (w.turn + 1) []).stops else 0) (.ok w1) := by
    rintro rfl
    rw [if_neg fun hm => nomatch hmakes.mpr hm]
    exact h1
  rcases hcase with ⟨ho, -⟩ | ⟨th, t, -, ⟨ho, -⟩ | ⟨ho, hst, _, hsame⟩⟩
  · dsimp only at ho
    subst ho
    exact hnone rfl
  · dsimp only at ho
    subst ho
    exact hnone rfl
  · dsimp only at ho
    subst ho
    have hst1 : (w1.tm.threads th).status ≠ .stop := by
      rw [(hsame.threads th).2.2]
      dsimp only [MwWorker.setThread]
      rwa [ThreadMem.setThread_self]
    have hturn : w1.turn = w.turn + 1 := htouch.turn
    have hresume : Filled _ (threadResume lua k w1 th []) := threadResume_filled h1 []
    rw [resumeStops, if_neg hst1, hturn] at hresume
    rw [if_pos (hmakes.mp rfl)]
    exact hresume

theorem handleAccept_filled (h : Filled n (.ok w)) (conns : List Conn) :
    Filled (n + connStops lua w.turn w.curTid conns) (handleAccept lua k w conns) := by
  unfold handleAccept
  induction conns generalizing n w with
  | nil => exact h
  | cons c conns ih =>
      rw [List.foldlM_cons]
      have hconn : Filled _ (acceptConn lua k w c) := acceptConn_filled h c
      have htouch := acceptConn_touches lua k w c
      rw [connStops]
      by_cases hmakes : c.Makes w.curTid
      · rw [if_pos hmakes] at hconn ⊢
        rw [← Nat.add_assoc]
        refine hconn.bind fun w1 hrun h1 => ?_
        have ht := htouch.of_ok hrun
        rw [if_pos hmakes] at ht
        rw [← ht.turn, ← ht.curTid]
        exact ih h1
      · rw [if_neg hmakes] at hconn ⊢
        refine Filled.bind hconn fun w1 hrun h1 => ?_
        have ht := htouch.of_ok hrun
        rw [if_neg hmakes] at ht
        have htid : (if c.lthread then w.curTid + 1 else w.curTid) = w1.curTid := by
          rw [ht.curTid]
          cases c.lthread <;> simp
        rw [htid, ← ht.turn]
        exact ih h1

theorem handleFd_filled (h : Filled n (.ok w)) (res : Addr) (args : LuaStack) :
    Filled (n + fdStops lua w res args) (handleFd lua k w res args) := by
  have hres : Meets (w.res res) (fun r => w.ress res = some r) (· ≠ .overflow) :=
    (w.res_meets res).imp_error fun _ => LocalFault.ne_overflow
  refine Meets.bind (hres.imp_error fun _ he heq => absurd heq he) fun r hr => ?_
  unfold fdStops
  rw [hr, Option.bind_some]
  cases r.th with
  | none => exact nofun
  | some th =>
      refine h.unlessStopped fun _ => ?_
      refine (h.keeps (delFromPool_keeps k w th)).bind fun w1 hrun1 h1 => ?_
      have hsame1 := (delFromPool_sameRess k w th).of_ok hrun1
      have hst1 := (delFromPool_status k w th).of_ok hrun1
      refine (h1.keeps (thRemoveResFromEpfd_same w1 th).keepsStops).bind fun w2 hrun2 h2 => ?_
      have hsame2 := (thRemoveResFromEpfd_sameRess w1 th).of_ok hrun2
      have hst2 := ((thRemoveResFromEpfd_same w1 th).of_ok hrun2).threads th
      have hresume : Filled _ (threadResume lua k w2 th args) := threadResume_filled h2 args
      rwa [resumeStops, hst2.2.2, hst1, hsame2.turn, hsame1.turn] at hresume

theorem dispatch_filled (h : Filled n (.ok w)) (e : EpollEvent) :
    Filled (n + eventStops lua w e) (dispatch lua k w e) := by
  refine @dispatch_choose _ lua k w e (fun m x => Filled (n + m) x) _ _ _ (fun _ => ?_) h
    (handleAccept_filled h e.conns) (handleFd_filled h e.ptr)
  exact h.keeps (x := .ok (w.close w.cfd)) (close_same w w.cfd).stopThreads

theorem processIo_filled (h : Filled n (.ok w)) (events : List EpollEvent) :
    Filled (n + ioStops lua k events w) (processIo lua k w events) := by
  unfold processIo
  induction events generalizing n w with
  | nil => exact h
  | cons e es ih =>
      rw [List.foldlM_cons, ioStops, ← Nat.add_assoc]
      exact (dispatch_filled h e).onward fun w1 _ h1 => ih h1

/-! ## The passes -/

/-- A visitor that resumes the thread it gets. -/
def Resumes (lua : Lua) (visit : Nat → MwWorker → Addr → WRun MwWorker) (code : Int) : Prop :=
  ∀ k n w th, Filled n (.ok w) →
    Filled (n + resumeStops lua w th [.integer code]) (visit k w th)

theorem pIoTimeoutThread_resumes (lua : Lua) :
    Resumes lua (pIoTimeoutThread lua) lasSResumeIoTimeout := by
  intro k n w th h
  refine h.unlessStopped fun _ => ?_
  refine (h.keeps (thRemoveResFromEpfd_same w th).keepsStops).bind fun w1 hrun1 h1 => ?_
  have hsame1 := (thRemoveResFromEpfd_sameRess w th).of_ok hrun1
  have hst1 := ((thRemoveResFromEpfd_same w th).of_ok hrun1).threads th
  have hresume : Filled _ (threadResume lua k w1 th [.integer lasSResumeIoTimeout]) :=
    threadResume_filled h1 _
  rwa [resumeStops, hst1.2.2, hsame1.turn] at hresume

theorem pSleepThread_resumes (lua : Lua) : Resumes lua (pSleepThread lua) lasSResumeSleep := by
  intro k n w th h
  exact h.unlessStopped fun _ => threadResume_filled h [.integer lasSResumeSleep]

/-- A pass adds one entry for each script that ends in it, in whatever order the traversal
comes to the threads. -/
theorem pass_filled {visit : Nat → MwWorker → Addr → WRun MwWorker} {code : Int}
    (hvisit : Resumes lua visit code) (h : Filled n (.ok w)) (p : Addr) (now : Int) :
    Filled (n + passStops lua visit code k w p now) (do
      let (tm, root) ← ofTree (asthreadRemoveTimeoutThreads k w.tm p now)
      travelThreads visit k { w with tm := tm } root) := by
  unfold passStops
  cases hsplit : asthreadRemoveTimeoutThreads k w.tm p now with
  | error f => exact nofun
  | ok s =>
      obtain ⟨tm, root⟩ := s
      let w0 : MwWorker := { w with tm := tm }
      let count := fun th (x : WRun MwWorker) =>
        onward x fun w => resumeStops lua w th [.integer code]
      have hvisitor : ∀ th m (x : WRun MwWorker × Nat) (s : RbMem Addr × WRun MwWorker × Nat),
          Filled (n + x.2) x.1 → counted (visitor visit k) count th (m, x) = .ok s →
          Filled (n + s.2.2) s.2.1 := by
        rintro th m ⟨x, c⟩ s hx hrun
        obtain ⟨s1, hvis, hs⟩ := cbind_eq_ok.mp hrun
        cases hs
        dsimp only
        rw [visitor_snd hvis, ← Nat.add_assoc]
        exact hx.onward fun w1 _ h1 => hvisit k _ _ th h1
      have h0 : Filled (n + 0) (.ok w0) := h
      have hcount := rbTreePostorderTravel_counted (visitor visit k) count k ⟨root, tm.nodes⟩
        (.ok w0) 0 root
      change Filled _ (travelThreads visit k w0 root)
      dsimp only
      unfold travelThreads
      rw [← hcount]
      cases htravel : rbTreePostorderTravel (counted (visitor visit k) count) k
          (⟨root, tm.nodes⟩, .ok w0, 0) root with
      | error f => exact nofun
      | ok s =>
          have hs : Filled (n + s.2.2) s.2.1 :=
            rbTreePostorderTravel_keeps (P := fun x => Filled (n + x.2) x.1) hvisitor h0 htravel
          change Filled _ (s.2.1 >>= fun w1 =>
            Except.ok { w1 with tm := { w1.tm with nodes := s.1.nodes } })
          exact Meets.bind hs fun w1 h1 => h1

/-! ## The loop -/

theorem processStopThreads_keeps (lua : Lua) (w : MwWorker) :
    KeepsStops w (processStopThreads lua w) := by
  refine Meets.foldlM (I := fun _ (w' : MwWorker) => w'.stopThreads = w.stopThreads) ?_ rfl
  intro th _ w1 h1
  refine ((releaseThread_freed lua w1 th).imp ?_).imp_error fun _ => LocalFault.ne_overflow
  intro w2 h2
  exact h2.same.stopThreads.trans h1

/-- A turn of the loop leaves one entry for each script that ends in it. -/
theorem turnBody_filled (lua : Lua) (k : Nat) (w : MwWorker) (t : Turn) :
    Filled (turnStops lua k w t) (turnBody lua k w t) := by
  let w0 : MwWorker := { w with stopThreads := [] }
  have h0 : Filled 0 (.ok w0) := ⟨rfl, Nat.zero_le _⟩
  have hio : Filled _ (processIo lua k w0 t.events) := processIo_filled h0 t.events
  rw [Nat.zero_add] at hio
  refine hio.onward fun w1 _ h1 => ?_
  rw [← Nat.add_assoc]
  refine (pass_filled (pIoTimeoutThread_resumes lua) h1 ioPool t.nowIo).onward fun w2 _ h2 => ?_
  have hsleep := pass_filled (k := k) (pSleepThread_resumes lua) h2 sleepPool t.nowSleep
  exact Filled.bind (d := 0) hsleep fun w3 _ h3 => h3.keeps (processStopThreads_keeps lua w3)

end

/-- In no turn do more scripts end than `stop_threads` was made for. -/
def StopsFit (lua : Lua) (k : Nat) : List Turn → MwWorker → Prop
  | [], _ => True
  | t :: ts, w => turnStops lua k w t ≤ maxEvents
      ∧ ∀ w', turnBody lua k w t = .ok w' → StopsFit lua k ts w'

/-- `stop_threads->n` is at most `_MAX_EVENTS`, and nothing has been written past
the end of the array. -/
def InArray (x : WRun MwWorker) : Prop :=
  Meets x (fun w => w.stopThreads.length ≤ maxEvents) (· ≠ .overflow)

/-- The array is not run over in a turn of the loop: not after any of the events,
nor after either pass, nor at the end. -/
structure TurnInArray (lua : Lua) (k : Nat) (w : MwWorker) (t : Turn) : Prop where
  io : ∀ done, done <+: t.events → InArray (processIo lua k { w with stopThreads := [] } done)
  ioTimeout : InArray (do
    let w ← processIo lua k { w with stopThreads := [] } t.events
    processIoTimeout lua k w t.nowIo)
  sleep : InArray (do
    let w ← processIo lua k { w with stopThreads := [] } t.events
    let w ← processIoTimeout lua k w t.nowIo
    processSleep lua k w t.nowSleep)
  body : InArray (turnBody lua k w t)

/-- The array is not run over in any turn of a run. -/
def StaysInArray (lua : Lua) (k : Nat) : List Turn → MwWorker → Prop
  | [], _ => True
  | t :: ts, w => TurnInArray lua k w t
      ∧ ∀ w', turnBody lua k w t = .ok w' → StaysInArray lua k ts w'

theorem maxEvents_le_stopSlots : maxEvents ≤ stopSlots := by decide

theorem Filled.inArray {n : Nat} {x : WRun MwWorker} (h : Filled n x) (hn : n ≤ maxEvents) :
    InArray x := by
  refine (Meets.imp h fun _ hw => hw.1 ▸ hn).imp_error fun e he heq => ?_
  exact Nat.not_lt_of_le (Nat.le_trans hn maxEvents_le_stopSlots) (he heq)

section

variable {lua : Lua} {k : Nat}

/-- The count does not go back from one event to the next. -/
theorem ioStops_prefix {done events : List EpollEvent} (h : done <+: events) (w : MwWorker) :
    ioStops lua k done w ≤ ioStops lua k events w := by
  induction events generalizing done w with
  | nil => exact Nat.le_of_eq (by rw [List.prefix_nil.mp h])
  | cons e es ih =>
      cases done with
      | nil => exact Nat.zero_le _
      | cons e' done =>
          obtain ⟨rfl, hrest⟩ := List.cons_prefix_cons.mp h
          rw [ioStops, ioStops]
          refine Nat.add_le_add_left ?_ _
          cases dispatch lua k w e' with
          | ok w' => exact ih hrest w'
          | error e => exact Nat.le_refl _

/-- A turn in which few enough scripts end stays in the array throughout, as the count never
goes back. -/
theorem turnBody_inArray {w : MwWorker} {t : Turn} (hfit : turnStops lua k w t ≤ maxEvents) :
    TurnInArray lua k w t := by
  let w0 : MwWorker := { w with stopThreads := [] }
  have h0 : Filled 0 (.ok w0) := ⟨rfl, Nat.zero_le _⟩
  have hio : ∀ events, Filled (ioStops lua k events w0) (processIo lua k w0 events) := by
    intro events
    have h : Filled _ (processIo lua k w0 events) := processIo_filled h0 events
    rwa [Nat.zero_add] at h
  let timeoutStops :=
    fun w => passStops lua (pIoTimeoutThread lua) lasSResumeIoTimeout k w ioPool t.nowIo
  let sleepStops :=
    fun w => passStops lua (pSleepThread lua) lasSResumeSleep k w sleepPool t.nowSleep
  have htimeout :
      Filled (ioStops lua k t.events w0 + onward (processIo lua k w0 t.events) timeoutStops)
      (processIo lua k w0 t.events >>= fun w => processIoTimeout lua k w t.nowIo) :=
    (hio t.events).onward fun w1 _ h1 =>
      pass_filled (pIoTimeoutThread_resumes lua) h1 ioPool t.nowIo
  have hsleep : Filled (turnStops lua k w t)
      (processIo lua k w0 t.events >>= fun w => processIoTimeout lua k w t.nowIo >>= fun w =>
        processSleep lua k w t.nowSleep) := by
    refine (hio t.events).onward fun w1 _ h1 => ?_
    rw [← Nat.add_assoc]
    refine (pass_filled (pIoTimeoutThread_resumes lua) h1 ioPool t.nowIo).onward fun w2 _ h2 => ?_
    exact pass_filled (pSleepThread_resumes lua) h2 sleepPool t.nowSleep
  have hle : ioStops lua k t.events w0 + onward (processIo lua k w0 t.events) timeoutStops
      ≤ turnStops lua k w t := by
    refine Nat.add_le_add_left ?_ _
    cases processIo lua k w0 t.events with
    | ok w1 => exact Nat.le_add_right _ _
    | error e => exact Nat.le_refl _
  refine ⟨?_, htimeout.inArray (Nat.le_trans hle hfit), hsleep.inArray hfit,
    (turnBody_filled lua k w t).inArray hfit⟩
  intro done hdone
  refine (hio done).inArray ?_
  calc ioStops lua k done w0 ≤ ioStops lua k t.events w0 := ioStops_prefix hdone w0
    _ ≤ turnStops lua k w t := Nat.le_add_right _ _
    _ ≤ maxEvents := hfit

end

/-- The runs whose turns all fit stay in the array, and a run that comes to its end and has
stayed in the array is one of these. -/
theorem stopThreads_fit (lua : Lua) (k : Nat) (turns : List Turn) (w : MwWorker) :
    (StopsFit lua k turns w → StaysInArray lua k turns w)
    ∧ ∀ w', turns.foldlM (turnBody lua k) w = .ok w' → StaysInArray lua k turns w →
      StopsFit lua k turns w := by
  constructor
  · induction turns generalizing w with
    | nil => exact fun _ => trivial
    | cons t ts ih =>
        rintro ⟨hfit, hrest⟩
        exact ⟨turnBody_inArray hfit, fun w' hrun => ih w' (hrest w' hrun)⟩
  · induction turns generalizing w with
    | nil => exact fun _ _ _ => trivial
    | cons t ts ih =>
        rintro w' hrun ⟨hturn, hrest⟩
        rw [List.foldlM_cons] at hrun
        cases hbody : turnBody lua k w t with
        | error e =>
            rw [hbody] at hrun
            cases hrun
        | ok w1 =>
            rw [hbody, wbind_ok] at hrun
            have hlen := ((turnBody_filled lua k w t).of_ok hbody).1
            refine ⟨hlen ▸ hturn.body.of_ok hbody, fun w2 hw2 => ?_⟩
            rw [hbody] at hw2
            cases hw2
            exact ih w1 w' hrun (hrest w1 hbody)

/-- A turn with one connection whose script ends at once. -/
def oneTurn : Turn := ⟨[⟨epollIn, 0, [⟨4, some 10, true, some 11⟩], 0⟩], 0, 0⟩

theorem stopThreads_fit_one : StaysInArray idleLua 8 [oneTurn] startWorker := by
  have hfit : StopsFit idleLua 8 [oneTurn] startWorker := ⟨by decide, fun _ _ => trivial⟩
  exact (stopThreads_fit idleLua 8 [oneTurn] startWorker).1 hfit

/-! ## A crowd at the door -/

/-- What is free after `i` connections. -/
structure FreeFrom (i : Nat) (w : MwWorker) : Prop where
  number : ∀ a ≥ 2 * i + 10, w.number a = none
  ress : ∀ a ≥ 2 * i + 10, w.ress a = none
  cfdRes : w.cfdRes = 0
  fds : ∀ j ≥ i, w.fds (4 + j) = none
  epoll : ∀ j ≥ i, w.epoll (4 + j) = none
  curTid : w.curTid = BitVec.ofNat 32 i

def crowdConn (i : Nat) : Conn := ⟨4 + i, some (2 * i + 10), true, some (2 * i + 11)⟩

/-- One more connection is served, and its script ends, if there is room for the thread in
the block. -/
theorem crowdConn_accept (k : Nat) {i : Nat} (hi : i < 2 ^ 16) {w : MwWorker} (h : FreeFrom i w) :
    Meets (acceptConn idleLua k w (crowdConn i)) (FreeFrom (i + 1)) (· = .overflow) := by
  have hfd := h.fds i (Nat.le_refl i)
  have hep := h.epoll i (Nat.le_refl i)
  have hth := h.number (2 * i + 10) (by omega)
  have hth' := h.ress (2 * i + 10) (by omega)
  have hres := h.number (2 * i + 11) (by omega)
  have hres' := h.ress (2 * i + 11) (by omega)
  have htid : ¬BitVec.ofNat 32 i + 1#32 = 4294967295#32 := by
    intro he
    have hnat := congrArg BitVec.toNat he
    simp only [BitVec.toNat_add, BitVec.toNat_ofNat] at hnat
    omega
  simp only [acceptConn, newThread, newThreadIn, MwWorker.openFd, crowdConn, hfd,
    Option.isSome_none,
    Bool.false_eq_true, ↓reduceIte, h.cfdRes, h.curTid, MwWorker.alloc, MwWorker.InUse, luaCollect,
    idleLua, List.foldlM_nil, asthreadThInit, MwWorker.setThread, BitVec.ofNat_eq_ofNat,
    BitVec.reduceNeg, newMfdRes, asthreadResInit, MwWorker.res, MwWorker.setRes,
      Function.update_self,
    Function.update_idem, wbind_ok, asthreadResAddToTh, MwWorker.thread, asthreadResEvInit,
    MwWorker.CanAdd, MwWorker.watch, MwWorker.note, bind_assoc, ThreadMem.setThread_self, pure_bind,
    hth, hth', Nat.add_eq_zero_iff, mul_eq_zero, OfNat.ofNat_ne_zero, false_or, and_false, or_self,
    htid, hres', or_false, Option.isSome_some, hep, and_self, ne_eq, Nat.succ_ne_self,
    not_false_eq_true, Function.update_of_ne, hres, threadResume, afterResume, asthreadThToStop,
    asthreadThAddToArray, ofTree, asthreadThDelFromPool, Int.reduceNeg, ge_iff_le, reduceCtorEq]
  split
  · exact rfl
  · refine ⟨?_, ?_, rfl, ?_, ?_, ?_⟩
    · intro a ha
      have hne : a ≠ 2 * i + 10 := by omega
      exact (Function.update_of_ne hne ..).trans (h.number a (by omega))
    · intro a ha
      have hne : a ≠ 2 * i + 11 := by omega
      exact (Function.update_of_ne hne ..).trans (h.ress a (by omega))
    · intro j hj
      have hne : (4 + j : Int) ≠ 4 + i := by omega
      exact (Function.update_of_ne hne ..).trans (h.fds j (by omega))
    · intro j hj
      have hne : (4 + j : Int) ≠ 4 + i := by omega
      exact (Function.update_of_ne hne ..).trans (h.epoll j (by omega))
    · exact (BitVec.ofNat_add i 1).symm

theorem crowd_accept (k : Nat) {m i : Nat} (hi : i + m ≤ 2 ^ 16) {w : MwWorker} (h : FreeFrom i w) :
    Meets (handleAccept idleLua k w ((List.range' i m).map crowdConn)) (FreeFrom (i + m))
      (· = .overflow) := by
  unfold handleAccept
  induction m generalizing i w with
  | zero => exact h
  | succ m ih =>
      rw [List.range'_succ, List.map_cons, List.foldlM_cons]
      refine (crowdConn_accept k (by omega) h).bind fun w1 h1 => ?_
      rw [show i + (m + 1) = i + 1 + m by omega]
      exact ih (by omega) h1

theorem crowd_stops {turn m i : Nat} {tid : BitVec 32} (h : tid.toNat + m < 2 ^ 32 - 1) :
    connStops idleLua turn tid ((List.range' i m).map crowdConn) = m := by
  induction m generalizing turn i tid with
  | zero => rfl
  | succ m ih =>
      have hnat : (tid + 1).toNat = tid.toNat + 1 := by
        rw [BitVec.toNat_add]
        exact Nat.mod_eq_of_lt (by simp; omega)
      have hmakes : (crowdConn i).Makes tid := by
        refine ⟨rfl, ?_⟩
        intro he
        rw [he] at hnat
        simp at hnat
        omega
      rw [List.range'_succ, List.map_cons, connStops, if_pos hmakes, ih (by omega)]
      exact Nat.add_comm 1 m

theorem startWorker_freeFrom : FreeFrom 0 startWorker := by
  refine ⟨fun _ _ => rfl, fun _ _ => rfl, rfl, fun j _ => if_neg ?_, fun j _ => if_neg ?_, rfl⟩
  · omega
  · omega

/-- A crowd of `m` in one event: their threads are all in `stop_threads` if the block has
room for them, and else one of them is written outside it. -/
theorem crowd_fills (k : Nat) {m : Nat} (hm : m ≤ 2 ^ 16) :
    (m ≤ stopSlots →
      ∃ w, handleAccept idleLua k startWorker ((List.range' 0 m).map crowdConn) = .ok w
      ∧ w.stopThreads.length = m)
    ∧ (stopSlots < m →
      handleAccept idleLua k startWorker ((List.range' 0 m).map crowdConn) = .error .overflow) := by
  have hle : 0 + m ≤ 2 ^ 16 := by omega
  have hfault := crowd_accept k hle startWorker_freeFrom
  have hstart : Filled 0 (.ok startWorker) := ⟨rfl, Nat.zero_le _⟩
  have hfilled : Filled _ (handleAccept idleLua k startWorker ((List.range' 0 m).map crowdConn)) :=
    handleAccept_filled hstart _
  have htid : startWorker.curTid.toNat = 0 := rfl
  rw [crowd_stops (by omega), Nat.zero_add] at hfilled
  cases hrun : handleAccept idleLua k startWorker ((List.range' 0 m).map crowdConn) with
  | ok w =>
      rw [hrun] at hfilled
      exact ⟨fun _ => ⟨w, rfl, hfilled.1⟩, fun hlt => absurd hfilled.2 (Nat.not_le_of_lt hlt)⟩
  | error e =>
      rw [hrun] at hfault hfilled
      obtain rfl : e = .overflow := hfault
      exact ⟨fun hle => absurd (hfilled rfl) (Nat.not_lt_of_le hle), fun _ => rfl⟩

/-- A turn with one event, for which `m` connections are there. -/
def crowdTurn (m : Nat) : Turn := ⟨[⟨epollIn, 0, (List.range' 0 m).map crowdConn, 0⟩], 0, 0⟩

theorem crowdTurn_io (k m : Nat) : processIo idleLua k startWorker (crowdTurn m).events
    = handleAccept idleLua k startWorker ((List.range' 0 m).map crowdConn) := by
  have haccept : ∀ conns, dispatch idleLua k startWorker ⟨epollIn, 0, conns, 0⟩
      = handleAccept idleLua k startWorker conns := by
    intro conns
    have hcfd : startWorker.cfdRes = 0 := rfl
    simp [dispatch, EpollEvent.has, epollIn, epollErr, epollHup, hcfd]
  rw [crowdTurn, processIo, List.foldlM_cons, haccept]
  exact bind_pure (m := WRun) _

/-- The events of a turn that begins with an empty array leave no more threads in it than it
was made for. -/
theorem TurnInArray.length_le {lua : Lua} {k : Nat} {w w' : MwWorker} {t : Turn}
    (h : TurnInArray lua k w t) (hw : w.stopThreads = [])
    (hrun : processIo lua k w t.events = .ok w') : w'.stopThreads.length ≤ maxEvents := by
  have hstart : { w with stopThreads := [] } = w := by rw [← hw]
  have hio := h.io t.events (List.prefix_refl _)
  rw [hstart] at hio
  exact hio.of_ok hrun

/-- One connection more than the array was made for: the last thread is past its end, and
the worker goes on. With one more than the block has room for, it is written outside the
block. -/
theorem crowd_overflows : Begun startWorker
    ∧ (∀ k, ∃ w, processIo idleLua k startWorker (crowdTurn (maxEvents + 1)).events = .ok w
      ∧ w.stopThreads.length = maxEvents + 1)
    ∧ (∀ k, ¬StaysInArray idleLua k [crowdTurn (maxEvents + 1)] startWorker)
    ∧ ∀ k, processIo idleLua k startWorker (crowdTurn (stopSlots + 1)).events
      = .error .overflow := by
  have hcrowd : ∀ k, ∃ w, processIo idleLua k startWorker (crowdTurn (maxEvents + 1)).events = .ok w
      ∧ w.stopThreads.length = maxEvents + 1 := by
    intro k
    rw [crowdTurn_io]
    exact (crowd_fills k (by decide)).1 (by decide)
  refine ⟨startWorker_begun, hcrowd, ?_, ?_⟩
  · intro k hstays
    obtain ⟨w, hrun, hlen⟩ := hcrowd k
    have hle := hstays.1.length_le rfl hrun
    rw [hlen] at hle
    exact Nat.not_succ_le_self maxEvents hle
  · intro k
    rw [crowdTurn_io]
    exact (crowd_fills k (by decide)).2 (Nat.lt_succ_self _)

end Artorias
