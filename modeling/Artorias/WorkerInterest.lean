import Artorias.SocketCalls
import Artorias.WorkerEpoll
import Artorias.WorkerEnd

/-!
# The socket that a thread is woken for

`asthread_remove_res_from_epfd` is to take a thread's resources out of `epoll`
before it is resumed, but `asthread_res_ev_del` leaves alone just those that
are in it. `interest_alone` is about the runs in which no thread waits while
another of its resources is still armed from an earlier wait.
-/

namespace Artorias

/-! ## Runs without a wait that is not clear -/

section

variable {w : MwWorker} {th u : Addr}

/-- A thread has waited with another resource armed, or the interest sets are
as they should be. -/
def Tidy (w : MwWorker) : Prop := Owner w none ∧ (.ioWait false ∈ w.log ∨ Interest w)

namespace Tidy

variable {w' : MwWorker}

theorem shuts (h : Tidy w) (hs : Shuts w w') (hw : Owner w' none) : Tidy w' :=
  ⟨hw, h.2.imp (hs.log _) fun hi => hi.shuts hs hw.2.opened⟩

theorem core (h : Tidy w) (hc : SameCore w w') : Tidy w' :=
  h.shuts (.of_core hc) ((SameOwners.of_core hc).owner h.1)

theorem tends (h : Tidy w) (ht : Tends w w') : Tidy w' :=
  ⟨ht.owners.owner h.1, h.2.imp (ht.log _) ht.interest⟩

end Tidy

/-- The worker is tidy while the thread `th` runs: it is there, and it does not wait. -/
def TidyRun (w : MwWorker) (th : Addr) : Prop :=
  Tidy w ∧ w.waits th = none ∧ (w.number th).isSome

theorem runAct_tidy {lua : Lua} (hlua : Connects lua) (h : TidyRun w th) {n : Nat} {args : LuaStack}
    {a : LuaAct} (ha : a ∈ (lua n args).acts) :
    Meets (runAct th w a) (TidyRun · th) AnyFault := by
  obtain ⟨htidy, hwaits, hlive⟩ := h
  -- The thread and its owners are as other lemmas say; what is left is the interest.
  suffices hkeeps : Meets (runAct th w a) (fun w' => (Owner w' none → Tidy w') ∧ w'.waits th = none)
      AnyFault by
    refine ((hkeeps.and (runAct_owner hlua htidy.1 hlive ha)).and (runAct_same th w a)).imp
      fun w' h' => ⟨h'.1.1.1 h'.1.2, h'.1.1.2, ?_⟩
    rw [h'.2.number]
    exact hlive
  have hshuts : ∀ w', Shuts w w' → (Owner w' none → Tidy w') ∧ w'.waits th = none :=
    fun w' hs => ⟨htidy.shuts hs, hs.waits th hwaits⟩
  cases a with
  | getMsock u =>
      simp only [runAct, lcfSocketGetMsock]
      split
      · exact trivial
      · exact (thread_any w th).bind fun t _ => hshuts _ (.setSock w u _)
  | socketNew u malloc connect =>
      cases malloc with
      | none =>
          simp only [runAct, lcfSocketNew]
          split
          · exact trivial
          · have hs :
              Shuts w { w.setSock u (some ⟨none, .custom, w.next⟩) with next := w.next + 1 } :=
              { Shuts.refl w with }
            exact hshuts _ hs
      | some res =>
          cases connect with
          | none => exact absurd ha (hlua n args u res)
          | some fd =>
              refine (lcfSocketNew_interest hlive res fd).imp fun w' h' => ?_
              obtain ⟨hlog, hw', hi⟩ := h'
              exact ⟨fun howner => ⟨howner, htidy.2.imp (hlog _) hi⟩, by rw [hw', hwaits]⟩
  | close u => exact (lcfSocketClose_shuts w u).imp fun w' => hshuts w'
  | gc u => exact (lcfSocketGc_shuts w u).imp fun w' => hshuts w'
  | evBegin socks complete =>
      refine (evBeginLoop_tends socks w htidy.1 hwaits).bind fun w1 h1 => ?_
      have hwaits1 : w1.waits th = none := by rw [h1.waits, hwaits]
      split
      · refine (thread_any w1 th).bind fun t ht => ?_
        subst ht
        refine ⟨fun howner => (htidy.tends h1).shuts (.setThread ?_) howner, hwaits1⟩
        intro _ _ hwait
        rw [hwaits1] at hwait
        cases hwait
      · exact ⟨fun _ => htidy.tends h1, hwaits1⟩
  | evEnd =>
      refine (thread_any w th).bind fun t ht => ?_
      subst ht
      split
      · exact hshuts w (.refl w)
      · have hset : Shuts w (w.setThread th { w.tm.threads th with mode := .simple }) := by
          refine .setThread fun _ _ hwait => ?_
          rw [hwaits] at hwait
          cases hwait
        have howner : Owner (w.setThread th { w.tm.threads th with mode := .simple }) none := by
          have hsame : SameOwners w (w.setThread th { w.tm.threads th with mode := .simple }) :=
            .of_setThread fun _ => ⟨rfl, rfl⟩
          exact hsame.owner htidy.1
        refine (asthreadRemoveResFromEpfd_tends howner hlive).imp fun w2 h2 => ?_
        exact ⟨fun _ => (htidy.shuts hset howner).tends h2, by rw [h2.waits]; exact hwaits⟩

/-! ## Moving threads -/

theorem addToPool_core (k : Nat) (w : MwWorker) (th p : Addr) :
    Meets (addToPool k w th p) (SameCore w) AnyFault := by
  unfold addToPool asthreadThAddToPool
  dsimp only
  split
  · exact .refl w
  · cases rbTreeInsert (nodeEtLt (w.tm.setThread th { w.tm.threads th with pool := some p })) k
      ((w.tm.setThread th { w.tm.threads th with pool := some p }).pool p) th with
    | error f => exact trivial
    | ok m =>
        change Meets (ofTree (rbTreeInsertCase k m th >>= _) >>= _) _ _
        cases rbTreeInsertCase k m th with
        | error f => exact trivial
        | ok m' =>
            refine .setTrees w fun x => ?_
            obtain ⟨hmode, hmfd, hresl, -⟩ := setThread_same_links w.tm th (some p) x
            exact ⟨hmode, hmfd, hresl⟩

theorem delFromPool_core (k : Nat) (w : MwWorker) (th : Addr) :
    Meets (delFromPool k w th) (SameCore w) AnyFault := by
  unfold delFromPool asthreadThDelFromPool
  split
  · exact .refl w
  · rename_i p _
    cases rbTreeDelete k (w.tm.pool p) th with
    | error f => exact trivial
    | ok m =>
        refine .setTrees w fun x => ?_
        obtain ⟨hmode, hmfd, hresl, -⟩ := setThread_same_links (w.tm.setPool p m) th none x
        exact ⟨hmode, hmfd, hresl⟩

theorem asthreadThToStop_core (k : Nat) (w : MwWorker) (th : Addr) :
    Meets (asthreadThToStop k w th) (SameCore w) AnyFault := by
  refine (thread_any w th).bind fun t ht => ?_
  subst ht
  have hset : SameCore w
      (w.setThread th { w.tm.threads th with status := .stop, pool := none }) :=
        .setThread rfl rfl rfl
  refine Meets.imp (Q := SameCore _) ?_ fun _ h => hset.trans h
  have hself : ((w.setThread th { w.tm.threads th with status := .stop, pool := none }).tm.threads
      th).pool = none := by rw [MwWorker.setThread, ThreadMem.setThread_self]
  simp only [asthreadThAddToArray, asthreadThDelFromPool, hself]
  change Meets (if _ then _ else _) _ _
  split
  · exact trivial
  · exact ⟨rfl, rfl, rfl, rfl, rfl, rfl, rfl, rfl, rfl, rfl, fun _ => ⟨rfl, rfl, rfl⟩⟩

theorem toPool_core (k : Nat) (w : MwWorker) (th p : Addr) (et : Int) (st : ThStatus) :
    Meets (addToPool k (w.setThread th { w.tm.threads th with et := et, status := st }) th p)
      (SameCore w) AnyFault := by
  have hset : SameCore w (w.setThread th { w.tm.threads th with et := et, status := st }) :=
    .setThread rfl rfl rfl
  exact (addToPool_core k _ th p).imp fun _ h => hset.trans h

theorem thYieldForSleep_core (k : Nat) (w : MwWorker) (th : Addr) (T : LuaStack) (now : Int) :
    Meets (thYieldForSleep k w th T now) (SameCore w) AnyFault := by
  refine (thread_any w th).bind fun t ht => ?_
  subst ht
  exact toPool_core k w th _ _ _

theorem asthreadThToIowait_core (k : Nat) (w : MwWorker) (th : Addr) (et : Int) (p : Addr) :
    Meets (asthreadThToIowait k w th et p) (SameCore w) AnyFault := by
  refine (thread_any w th).bind fun t ht => ?_
  subst ht
  exact toPool_core k w th p et .run

/-! ## Resuming -/

/-- A wait that is clear keeps the interest sets: no other resource of the thread
is armed. -/
theorem noteWait_interest (h : Interest w) {a : Addr} (hclear : ClearWait w th a) (k : Kont) :
    Interest (noteWait w th a k) := by
  refine ⟨h.closed, h.watched, ?_⟩
  intro y x b hb hne
  obtain ⟨hlive, hsimple, hwait, hmem⟩ := hb
  have hwait' : Function.update w.waits th (some (a, k)) y = some x := hwait
  by_cases hy : y = th
  · subst hy
    rw [Function.update_self, Option.some.injEq] at hwait'
    subst hwait'
    exact hclear.2 hsimple b hmem hne
  · rw [Function.update_of_ne hy] at hwait'
    exact h.alone y x b ⟨hlive, hsimple, hwait', hmem⟩ hne

/-- The wait itself arms its resource; it is clear, or it is on record that it is not. -/
theorem wait_tidy (h : Tidy w) (hlive : (w.number th).isSome) {a : Addr} (ha : (w.ress a).isSome)
    (k : Kont) (ev : BitVec 32) :
    Meets (asthreadResEvAdd (noteWait w th a k) a ev) Tidy AnyFault := by
  have howner := (noteWait_owners w th a k).owner h.1
  have hlog : ∀ e ∈ w.log, e ∈ (noteWait w th a k).log := fun _ he => List.mem_append_left _ he
  have hadd : (.ioWait false ∈ (noteWait w th a k).log) →
      Meets (asthreadResEvAdd (noteWait w th a k) a ev) Tidy AnyFault := by
    intro hbad
    have hsome : ((noteWait w th a k).ress a).isSome := ha
    refine ((asthreadResEvAdd_owners hsome ev).and (F := AnyFault)
      (R := fun w' => w'.log = (noteWait w th a k).log) ?_).imp fun w' h' => ?_
    · refine (res_any _ a).bind fun r _ => ?_
      split
      · exact rfl
      · exact rfl
    · exact ⟨h'.1.owner howner, .inl (h'.2 ▸ hbad)⟩
  by_cases hclear : ClearWait w th a
  · rcases h.2 with hbad | hi
    · exact hadd (hlog _ hbad)
    · obtain ⟨r, hr, hf, hth⟩ := h.1.1.open hlive hclear.1
      have hr' : (noteWait w th a k).ress a = some r := hr
      refine (asthreadResEvAdd_tends howner hr' hf (fun y x hb => ?_) ev).imp fun w' ht =>
        ⟨ht.owners.owner howner, .inr (ht.interest (noteWait_interest hi hclear k))⟩
      obtain rfl := hb.thread howner.1 hr' hth
      have hwait : Function.update w.waits y (some (a, k)) y = some x := hb.2.2.1
      rw [Function.update_self, Option.some.injEq] at hwait
      rw [← hwait]
  · refine hadd (List.mem_append_right _ ?_)
    rw [decide_eq_false hclear]
    exact .head _

theorem thYieldForIo_tidy (h : Tidy w) (hlive : (w.number th).isSome) (k : Nat) (T : LuaStack)
    (now : Int) (kont : Kont) : Meets (thYieldForIo k w th T now kont) Tidy AnyFault := by
  refine thYieldForIo_meets trivial (asthreadThToIowait_core k w th · ioPool)
    fun w1 a ev h1 hsome => ?_
  have hlive1 : (w1.number th).isSome := by
    rw [h1.number]
    exact hlive
  exact wait_tidy (h.core h1) hlive1 hsome kont ev

theorem afterResume_tidy (h : Tidy w) (hlive : (w.number th).isSome) (k : Nat) (run : LuaRun) :
    Meets (afterResume k w th run) Tidy AnyFault := by
  refine afterResume_meets (thYieldForIo_tidy h hlive k · _ ·) (fun T => ?_) ?_
  · exact (thYieldForSleep_core k w th T _).imp fun _ h' => h.core h'
  · exact (asthreadThToStop_core k w th).imp fun _ h' => h.core h'

theorem threadResume_tidy {lua : Lua} (hlua : Connects lua) (h : Tidy w) (k : Nat) (th : Addr)
    (args : LuaStack) : Meets (threadResume lua k w th args) Tidy AnyFault := by
  refine Meets.bind ((w.thread_meets th).imp_error fun _ _ => trivial) fun t ht => ?_
  obtain ⟨rfl, hlive⟩ := ht
  split
  · exact h
  · let w1 : MwWorker := { w with turn := w.turn + 1, waits := Function.update w.waits th none }
    have hs1 : Shuts w w1 := by
      refine { Shuts.refl w with wait := fun y x b hb => ?_, waits := fun y hy => ?_ }
      · obtain ⟨hlive', hsimple, hwait, hmem⟩ := hb
        have hwait' : Function.update w.waits th none y = some x := hwait
        by_cases hyth : y = th
        · subst hyth
          rw [Function.update_self] at hwait'
          cases hwait'
        · rw [Function.update_of_ne hyth] at hwait'
          exact ⟨hlive', hsimple, hwait', hmem⟩
      · change Function.update w.waits th none y = none
        by_cases hyth : y = th
        · subst hyth
          exact Function.update_self ..
        · rwa [Function.update_of_ne hyth]
    have howner1 : SameOwners w w1 := { SameOwners.refl w with }
    have hrun1 : TidyRun w1 th :=
      ⟨h.shuts hs1 (howner1.owner h.1), Function.update_self .., hlive⟩
    have hacts : Meets ((lua w.turn args).acts.foldlM (runAct th) w1) (TidyRun · th) AnyFault := by
      refine Meets.imp (Meets.foldlM (I := fun acts w' =>
        (∀ a ∈ acts, a ∈ (lua w.turn args).acts) ∧ TidyRun w' th) (fun a acts w2 h2 => ?_)
        ⟨fun _ ha => ha, hrun1⟩) fun _ h' => h'.2
      refine (runAct_tidy hlua h2.2 (h2.1 a (.head _))).imp fun w3 h3 => ?_
      exact ⟨fun b hb => h2.1 b (.tail _ hb), h3⟩
    exact hacts.bind fun w2 h2 => afterResume_tidy h2.1 h2.2.2 k _

/-! ## The handlers and the passes -/

variable {lua : Lua}

theorem handleFd_tidy (hlua : Connects lua) (h : Tidy w) (k : Nat) (res : Addr) (args : LuaStack) :
    Meets (handleFd lua k w res args) Tidy AnyFault := by
  refine (res_any w res).bind fun r _ => ?_
  cases r.th with
  | none => exact trivial
  | some th =>
      refine Meets.bind ((w.thread_meets th).imp_error fun _ _ => trivial) fun t ht => ?_
      obtain ⟨rfl, hlive⟩ := ht
      split
      · exact h
      · refine (delFromPool_core k w th).bind fun w1 h1 => ?_
        have hlive1 : (w1.number th).isSome := by
          rw [h1.number]
          exact hlive
        have htidy1 := h.core h1
        refine (thRemoveResFromEpfd_tends htidy1.1 hlive1).bind fun w2 h2 => ?_
        exact threadResume_tidy hlua (htidy1.tends h2) k th args

theorem acceptConn_tidy (hlua : Connects lua) (h : Tidy w) (k : Nat) (c : Conn) :
    Meets (acceptConn lua k w c) Tidy AnyFault := by
  refine (newThread_interest h.1 lua c).bind fun p hp => ?_
  obtain ⟨howner, hlog, hi⟩ := hp
  obtain ⟨w1, o⟩ := p
  have h1 : Tidy w1 := ⟨howner, h.2.imp (hlog _) hi⟩
  cases o with
  | none => exact h1
  | some th => exact threadResume_tidy hlua h1 k th []

/-- An event for the descriptor to accept from comes as long as that is open. -/
def AcceptOk (w : MwWorker) (e : EpollEvent) : Prop := e.ptr = w.cfdRes → w.fds w.cfd = some 0

theorem dispatch_tidy (hlua : Connects lua) (h : Tidy w) (k : Nat) {e : EpollEvent}
    (he : AcceptOk w e) : Meets (dispatch lua k w e) Tidy AnyFault := by
  have haccept := Meets.foldlM_keeps (fun w c hw => acceptConn_tidy hlua hw k c) e.conns h
  refine @dispatch_choose Unit lua k w e (fun _ x => Meets x Tidy AnyFault) () () (fun _ => ())
    (fun hcfd => ?_) h haccept (handleFd_tidy hlua h k e.ptr)
  exact h.shuts (.close w w.cfd) ((SameOwners.close_accept (he hcfd)).owner h.1)

theorem removeTimeout_core (k : Nat) (w : MwWorker) (p : Addr) (now : Int) :
    Meets (ofTree (asthreadRemoveTimeoutThreads k w.tm p now))
      (fun s => SameCore w { w with tm := s.1 }) AnyFault := by
  have hsame : ∀ tm : ThreadMem, tm.threads = w.tm.threads → SameCore w { w with tm := tm } := by
    intro tm htm
    exact .setTrees w fun th => by rw [htm]; exact ⟨rfl, rfl, rfl⟩
  unfold asthreadRemoveTimeoutThreads
  split
  · exact hsame _ rfl
  · rename_i root _
    split
    · cases cloop (rightSpineBody w.tm now) k root with
      | error f => exact trivial
      | ok n => exact hsame _ rfl
    · cases cloop (leftSpineBody w.tm now) k (w.tm.nodes root).left with
      | error f => exact trivial
      | ok o =>
          cases o with
          | none => exact hsame _ rfl
          | some sub =>
              change Meets (ofTree (rbTreeRemoveSubtree k (w.tm.pool p) sub >>= _)) _ _
              cases rbTreeRemoveSubtree k (w.tm.pool p) sub with
              | error f => exact trivial
              | ok m => exact hsame _ rfl

theorem setNodes_tidy (w : MwWorker) (nodes : Addr → RbNode Addr) (h : Tidy w) :
    Tidy (w.setNodes nodes) := h.core (.setTrees w fun _ => ⟨rfl, rfl, rfl⟩)

/-- A pass keeps the interest sets, whatever it takes out of the pool. -/
theorem pass_tidy {visit : Nat → MwWorker → Addr → WRun MwWorker}
    (hvisit : ∀ k w th, Tidy w → Meets (visit k w th) Tidy AnyFault) (h : Tidy w) (k : Nat)
    (p : Addr) (now : Int) : Meets (do
      let (tm, root) ← ofTree (asthreadRemoveTimeoutThreads k w.tm p now)
      travelThreads visit k { w with tm := tm } root) Tidy AnyFault :=
  (removeTimeout_core k w p now).bind fun s hs =>
    travelThreads_keeps setNodes_tidy (fun w n hw => hvisit k w n hw) (h.core hs) s.2

theorem pIoTimeoutThread_tidy (hlua : Connects lua) (k : Nat) (w : MwWorker) (th : Addr)
    (h : Tidy w) : Meets (pIoTimeoutThread lua k w th) Tidy AnyFault := by
  refine Meets.bind ((w.thread_meets th).imp_error fun _ _ => trivial) fun t ht => ?_
  obtain ⟨rfl, hlive⟩ := ht
  split
  · exact h
  · refine (thRemoveResFromEpfd_tends h.1 hlive).bind fun w1 h1 => ?_
    exact threadResume_tidy hlua (h.tends h1) k th _

theorem pSleepThread_tidy (hlua : Connects lua) (k : Nat) (w : MwWorker) (th : Addr)
    (h : Tidy w) : Meets (pSleepThread lua k w th) Tidy AnyFault := by
  refine (thread_any w th).bind fun t _ => ?_
  split
  · exact h
  · exact threadResume_tidy hlua h k th _

theorem releaseThread_tidy (lua : Lua) (w : MwWorker) (th : Addr) (h : Tidy w) :
    Meets (releaseThread lua w th) Tidy AnyFault := by
  cases hnum : w.number th with
  | none =>
      rw [releaseThread, asthreadThFree, hnum]
      exact trivial
  | some n =>
      have hlive : (w.number th).isSome := by
        rw [hnum]
        rfl
      exact ((releaseThread_owner h.1 lua hlive trivial).and (releaseThread_shuts lua w th)).imp
        fun w' h' => h.shuts h'.2 h'.1.owner

end

/-! ## Whole runs -/

/-- A step of the loop in `process`, or after it. -/
inductive LoopStep where
  | reset
  | event (e : EpollEvent)
  | ioTimeout (now : Int)
  | sleep (now : Int)
  | stop
  | recycle

def runLoopStep (lua : Lua) (k : Nat) (w : MwWorker) : LoopStep → WRun MwWorker
  | .reset => .ok { w with stopThreads := [] }
  | .event e => dispatch lua k w e
  | .ioTimeout now => processIoTimeout lua k w now
  | .sleep now => processSleep lua k w now
  | .stop => processStopThreads lua w
  | .recycle => recycleThreadsFromPool lua k w

def LoopStepOk (w : MwWorker) : LoopStep → Prop
  | .event e => AcceptOk w e
  | .reset | .ioTimeout _ | .sleep _ | .stop | .recycle => True

/-- `epoll` watches open descriptors only. -/
inductive LoopReach (lua : Lua) : MwWorker → Prop where
  | start {w : MwWorker} : Begun w → (∀ fd, w.fds fd = none → w.epoll fd = none) → LoopReach lua w
  | step {w w' : MwWorker} {s : LoopStep} (k : Nat) : LoopReach lua w → LoopStepOk w s →
      runLoopStep lua k w s = .ok w' → LoopReach lua w'

theorem LoopReach.tidy {lua : Lua} (hlua : Connects lua) {w : MwWorker} (h : LoopReach lua w) :
    Tidy w := by
  induction h with
  | start hbegun hclosed =>
      refine ⟨hbegun.owner, .inr ⟨hclosed, ?_, ?_⟩⟩
      · intro a r hr
        rw [hbegun.ress a] at hr
        cases hr
      · intro th x b hb
        have hlive := hb.1
        rw [hbegun.number th] at hlive
        cases hlive
  | @step w w' s k _ hok hrun ih =>
      suffices hstep : Meets (runLoopStep lua k w s) Tidy AnyFault from hstep.of_ok hrun
      cases s with
      | reset =>
          exact ih.core ⟨rfl, rfl, rfl, rfl, rfl, rfl, rfl, rfl, rfl, rfl, fun _ => ⟨rfl, rfl, rfl⟩⟩
      | event e => exact dispatch_tidy hlua ih k hok
      | ioTimeout now => exact pass_tidy (pIoTimeoutThread_tidy hlua) ih k ioPool now
      | sleep now => exact pass_tidy (pSleepThread_tidy hlua) ih k sleepPool now
      | stop => exact Meets.foldlM_keeps (fun w th hw => releaseThread_tidy lua w th hw) _ ih
      | recycle =>
          have hpool : ∀ w root, Tidy w →
              Meets (travelThreads (fun _ => releaseThread lua) k w root)
              Tidy AnyFault := fun w root hw =>
            travelThreads_keeps setNodes_tidy
              (fun w th hw => releaseThread_tidy lua w th hw) hw root
          exact (hpool w _ ih).bind fun w1 h1 => hpool w1 _ h1

/-! ## What wakes a thread -/

/-- The events that are registered for the resource `a`. -/
def MwWorker.interest (w : MwWorker) (a : Addr) : Option (BitVec 32) :=
  (w.ress a).bind fun r => (w.epoll r.d).map Prod.fst

/-- `th` is in `io_pool`, in simple mode, and has yielded for IO on `a`. -/
structure Suspended (w : MwWorker) (th a : Addr) (k : Kont) : Prop where
  live : (w.number th).isSome
  mode : (w.tm.threads th).mode = .simple
  pool : (w.tm.threads th).pool = some ioPool
  wait : w.waits th = some (a, k)

/-- Readable or writable, and nothing worse. -/
def EpollEvent.Ready (e : EpollEvent) : Prop :=
  e.has epollErr = false ∧ e.has epollHup = false ∧ (e.has epollIn || e.has epollOut) = true

/-- The event is for a resource of `th` for which something is registered. -/
def Wakes (w : MwWorker) (e : EpollEvent) (th : Addr) : Prop :=
  e.ptr ≠ w.cfdRes ∧ (∃ r, w.ress e.ptr = some r ∧ r.th = some th)
    ∧ ∃ ev, w.interest e.ptr = some ev ∧ ev ≠ 0

/-- Resumed with `args`, the call that has yielded goes on with the resource `a`.
`read` of three arguments returns what the kernel answers for its descriptor, and
`send` of two sends there; a script that has yielded by itself is told of `a`. -/
def GoesOnWith (w : MwWorker) (a : Addr) (args : LuaStack) : Kont → Prop
  | .script => (args.top 2).toUserdata = some a
  | .socketRead => ∃ r, w.ress a = some r ∧ ∀ u n timeout,
      ReadsFrom (kSocketRead w.sendMem .yield
        ([.userdata u, .integer n, .integer timeout] ++ args)) r.d (sreadLen n)
  | .socketSend => ∃ r, w.ress a = some r ∧ ∀ u buf c outs s,
      kSocketSend .yield ([.userdata u, buf] ++ args) c outs s
        = sendLoop r.d [.userdata u, buf] c outs s

/-- The continuations go on with the resource that the thread is resumed for, but for
`k_socket_send`, which looks for the code of the resume in the place of the socket. -/
theorem goesOnWith_iff {w : MwWorker} {a : Addr} {r : AsThreadRes} (hr : w.ress a = some r)
    (io : Int) (kont : Kont) :
    GoesOnWith w a (IoResume.ready a io).args kont ↔ kont ≠ .socketSend := by
  cases kont with
  | script => exact iff_of_true rfl (by decide)
  | socketRead =>
      refine iff_of_true ⟨r, hr, fun u n timeout => ?_⟩ (by decide)
      exact kSocketRead_resumed (MwWorker.sendMem_ress hr) (.inl rfl)
  | socketSend =>
      refine iff_of_false ?_ fun h => h rfl
      rintro ⟨r', -, hsend⟩
      have hraised := hsend 0 .nil 0 [] w.sendMem
      rw [List.cons_append, kSocketSend_yield] at hraised
      cases hraised

/-- An event that is readable or writable, and nothing worse, resumes the thread
as ready. -/
theorem EpollEvent.Ready.resumeOf {e : EpollEvent} (he : e.Ready) :
    ∃ io, resumeOf e = .ready e.ptr io := by
  obtain ⟨herr, hhup, hready⟩ := he
  have hwake : wakeOf e.events ≠ .error := by
    have hflags : (hasFlag e.events epollErr || hasFlag e.events epollHup
        || !(hasFlag e.events epollIn || hasFlag e.events epollOut)) = false := by
      change (e.has epollErr || e.has epollHup || !(e.has epollIn || e.has epollOut)) = false
      rw [herr, hhup, hready]
      rfl
    rw [wakeOf, hflags, if_neg Bool.false_ne_true]
    split <;> decide
  unfold Artorias.resumeOf
  cases hw : wakeOf e.events with
  | error => exact absurd hw hwake
  | input => exact ⟨_, rfl⟩
  | output => exact ⟨_, rfl⟩

/-- In a run in which every wait has been clear: nothing is registered for the other
resources of a thread that waits, and the event that wakes it is for the resource it waits
for. The call goes on with that, unless it is `send`. -/
theorem interest_alone {lua : Lua} (hlua : Connects lua) {w : MwWorker} (h : LoopReach lua w)
    (hclear : .ioWait false ∉ w.log) {th a : Addr} {kont : Kont} (hth : Suspended w th a kont) :
    (∀ b ∈ (w.tm.threads th).resl, b ≠ a → w.interest b = some 0)
    ∧ ∀ e, e.Ready → Wakes w e th → e.ptr = a
      ∧ ∃ args, (∀ k, dispatch lua k w e = handleFd lua k w a args)
        ∧ (GoesOnWith w a args kont ↔ kont ≠ .socketSend) := by
  obtain ⟨howner, hi⟩ := h.tidy hlua
  have hi := hi.resolve_left hclear
  have hothers : ∀ b ∈ (w.tm.threads th).resl, b ≠ a → w.interest b = some 0 := by
    intro b hb hne
    obtain ⟨r, hr, hf, -⟩ := howner.1.open hth.live hb
    obtain ⟨ev, hep, hidle⟩ := hi.watched b r hr hf
    have hst := hi.alone th (a, kont) b ⟨hth.live, hth.mode, hth.wait, hb⟩ hne
    have hev : ev = 0 := by
      refine hidle ?_
      cases hs : r.status with
      | idle => rfl
      | ev =>
          rw [hr, Option.map_some, hs] at hst
          exact absurd rfl hst
    rw [MwWorker.interest, hr, Option.bind_some, hep, hev]
    rfl
  refine ⟨hothers, ?_⟩
  intro e he hwakes
  obtain ⟨hcfd, ⟨r, hr, hrth⟩, ev, hev, hne⟩ := hwakes
  have hptr : e.ptr = a := by
    by_contra hptr
    have hmem : e.ptr ∈ (w.tm.threads th).resl := (howner.1.owned e.ptr r th hr hrth).2
    rw [hothers e.ptr hmem hptr, Option.some.injEq] at hev
    exact hne hev.symm
  subst hptr
  obtain ⟨io, hresume⟩ := he.resumeOf
  refine ⟨rfl, (resumeOf e).args, fun k => dispatch_resumeOf lua k hcfd, ?_⟩
  rw [hresume]
  exact goesOnWith_iff hr io kont

/-- A script that waits for its connection, and then for a socket it has made. -/
def turningLua : Lua := fun n _ =>
  let wait (a : Addr) : LuaResult :=
    .yield [.integer lasSYieldForIo, .lightuserdata (some a), .integer lasSWaitForInput, .integer 5]
      .socketRead
  match n with
  | 1 => ⟨[], [.socketNew 30 (some 21) (some 5)], wait 20, 0⟩
  | 2 => ⟨[], [], wait 21, 0⟩
  | _ => ⟨[], [], .ok, 0⟩

theorem turningLua_connects : Connects turningLua := by
  intro n args u res h
  match n with
  | 0 => exact absurd h (by simp [turningLua])
  | 1 => simp [turningLua] at h
  | 2 => simp [turningLua] at h
  | n + 3 => simp [turningLua] at h

/-- The worker after the first wait, and after the second. -/
def waitingWorker : MwWorker :=
  (dispatch turningLua 8 startWorker ⟨epollIn, 0, [⟨4, some 10, true, some 20⟩], 0⟩).toOption.getD
    startWorker

def turnedWorker : MwWorker :=
  (dispatch turningLua 8 waitingWorker ⟨epollIn, 20, [], 0⟩).toOption.getD startWorker

theorem waitingWorker_reach : LoopReach turningLua waitingWorker := by
  have hstart : LoopReach turningLua startWorker := by
    refine .start startWorker_begun fun fd hfd => ?_
    simp only [startWorker] at hfd ⊢
    split at hfd
    · cases hfd
    · rw [if_neg ‹_›]
  exact hstart.step (s := .event ⟨epollIn, 0, [⟨4, some 10, true, some 20⟩], 0⟩) 8
    (fun _ => rfl) rfl

/-- While the script waits for the connection, nothing is registered for the socket, and
`read` of the connection goes on with that. -/
theorem interest_alone_first : waitingWorker.interest 21 = some 0
    ∧ ∃ args, (∀ k, dispatch turningLua k waitingWorker ⟨epollIn, 20, [], 0⟩
        = handleFd turningLua k waitingWorker 20 args)
      ∧ GoesOnWith waitingWorker 20 args .socketRead := by
  have hsuspended : Suspended waitingWorker 10 20 .socketRead := ⟨rfl, rfl, rfl, rfl⟩
  have hclear : .ioWait false ∉ waitingWorker.log := by decide
  have halone := interest_alone turningLua_connects waitingWorker_reach hclear hsuspended
  have hwakes : Wakes waitingWorker ⟨epollIn, 20, [], 0⟩ 10 :=
    ⟨by decide, ⟨_, rfl, rfl⟩, _, rfl, by decide⟩
  obtain ⟨-, args, hdispatch, hgoes⟩ := halone.2 ⟨epollIn, 20, [], 0⟩ ⟨rfl, rfl, rfl⟩ hwakes
  exact ⟨halone.1 21 (by decide) (by decide), args, hdispatch, hgoes.mpr (by decide)⟩

/-- While the script waits for the socket, the connection is still armed, and bytes that
arrive there wake it; `read` of the socket then reads from the connection. -/
theorem interest_not_alone : LoopReach turningLua turnedWorker
    ∧ Suspended turnedWorker 10 21 .socketRead
    ∧ 20 ∈ (turnedWorker.tm.threads 10).resl
    ∧ turnedWorker.interest 20 = some (epollIn ||| epollEt)
    ∧ (⟨epollIn, 20, [], 0⟩ : EpollEvent).Ready ∧ Wakes turnedWorker ⟨epollIn, 20, [], 0⟩ 10
    ∧ (∀ k, dispatch turningLua k turnedWorker ⟨epollIn, 20, [], 0⟩
      = handleFd turningLua k turnedWorker 20 (IoResume.ready 20 lasSReadyToInput).args)
    ∧ ReadsFrom (kSocketRead turnedWorker.sendMem .yield ([.userdata 30, .integer 1024, .integer 5]
        ++ (IoResume.ready 20 lasSReadyToInput).args)) 4 1024 := by
  refine ⟨waitingWorker_reach.step (s := .event ⟨epollIn, 20, [], 0⟩) 8 nofun rfl,
    ⟨rfl, rfl, rfl, rfl⟩, by decide, rfl, ⟨rfl, rfl, rfl⟩,
    ⟨by decide, ⟨_, rfl, rfl⟩, _, rfl, by decide⟩, fun _ => rfl, ?_⟩
  have hres : turnedWorker.sendMem.ress 20 = some ⟨4, some .simple⟩ := rfl
  exact kSocketRead_resumed hres (.inl rfl)

end Artorias
