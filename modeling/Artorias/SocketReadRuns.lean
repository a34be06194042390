import Artorias.SocketRead
import Artorias.WorkerInterest
import Mathlib.Logic.Relation

/-!
# Reading with a wait, on the worker (`lm_socket.c`, `thread.c`, `mw_worker.c`)

`SimpleScript` says what a script sees of its sockets. Here the script's thread is one
of a worker: its calls are `lcf_socket_read` and `k_socket_read`, `th_yield_for_io`
registers the resource that it waits for, and an event takes the thread out of its pool
and its resources out of `epoll`, as far as `asthread_res_ev_del` does that. Of the
rest of the worker it is only said what it leaves alone (`Rest`).

`Reach.script` is the refinement: every state of the thread is one of the script. What
`epoll` has of a resource after a wait is `Armed`; it says that a resource that has been
waited for stays registered, and `readThread_mixes` is what comes of that.
-/

namespace Artorias

/-- The events that are registered for the resource `a`. -/
def MwWorker.watched (w : MwWorker) (a : Addr) : BitVec 32 := (w.interest a).getD 0

/-- The resource that a call is resumed for -/
def IoResume.res : IoResume → Option Addr
  | .ready res _ | .error res _ => some res
  | .timeout => none

theorem resumeOf_res (e : EpollEvent) : (resumeOf e).res = some e.ptr := by
  rw [resumeOf]
  cases wakeOf e.events <;> rfl

/-! ## The worker, but for one thread -/

/-- What else the worker does leaves alone the thread `th`, its resources, and what is
registered for them. -/
structure Rest (th : Addr) (w w' : MwWorker) : Prop where
  number : w'.number th = w.number th
  cfdRes : w'.cfdRes = w.cfdRes
  mode : (w'.tm.threads th).mode = (w.tm.threads th).mode
  resl : (w'.tm.threads th).resl = (w.tm.threads th).resl
  ress : ∀ a ∈ (w.tm.threads th).resl, w'.ress a = w.ress a
  epoll : ∀ a ∈ (w.tm.threads th).resl, ∀ r, w.ress a = some r →
    (w'.epoll r.d).map Prod.fst = (w.epoll r.d).map Prod.fst

/-- The thread is in a pool. -/
def Pooled (w : MwWorker) (th : Addr) : Prop :=
  ∃ members out p, Sched w members out ∧ th ∈ members p

/-- The thread is out of the pools: it runs, or it is about to. -/
def Unpooled (w : MwWorker) (th : Addr) : Prop := ∃ members out, Sched w members out ∧ th ∈ out

/-- What is registered for the resources of `th`: those that have been waited for are
in `AS_RSTATUS_EV` and stay registered, and nothing is for the others. -/
structure Armed (w : MwWorker) (th : Addr) (asked : List Addr) : Prop where
  live : (w.number th).isSome
  simple : (w.tm.threads th).mode = .simple
  cfdRes : w.cfdRes ∉ (w.tm.threads th).resl
  linked : ∀ a ∈ (w.tm.threads th).resl, ∃ r, w.ress a = some r ∧ r.th = some th
    ∧ r.status = (if a ∈ asked then .ev else .idle)
    ∧ (w.epoll r.d).map Prod.fst = some (if a ∈ asked then evR else 0)
  apart : ∀ a ∈ (w.tm.threads th).resl, ∀ b ∈ (w.tm.threads th).resl, ∀ ra rb,
    w.ress a = some ra → w.ress b = some rb → ra.d = rb.d → a = b
  asked : ∀ a ∈ asked, a ∈ (w.tm.threads th).resl

section

variable {w w' w'' : MwWorker} {th a : Addr} {asked : List Addr}

theorem Rest.refl (th : Addr) (w : MwWorker) : Rest th w w :=
  ⟨rfl, rfl, rfl, rfl, fun _ _ => rfl, fun _ _ _ _ => rfl⟩

theorem Rest.trans (h : Rest th w w') (h' : Rest th w' w'') : Rest th w w'' where
  number := h'.number.trans h.number
  cfdRes := h'.cfdRes.trans h.cfdRes
  mode := h'.mode.trans h.mode
  resl := h'.resl.trans h.resl
  ress a ha := (h'.ress a (by rwa [h.resl])).trans (h.ress a ha)
  epoll a ha r hr := by
    have ha' : a ∈ (w'.tm.threads th).resl := by rwa [h.resl]
    have hr' : w'.ress a = some r := by rw [h.ress a ha, hr]
    exact (h'.epoll a ha' r hr').trans (h.epoll a ha r hr)

theorem Rest.of_core (h : SameCore w w') : Rest th w w' where
  number := congrFun h.number th
  cfdRes := h.cfdRes
  mode := (h.threads th).1
  resl := (h.threads th).2.2
  ress a _ := congrFun h.ress a
  epoll a _ r _ := by rw [h.epoll]

theorem Rest.watched (h : Rest th w w') (ha : a ∈ (w.tm.threads th).resl) :
    w'.watched a = w.watched a := by
  rw [MwWorker.watched, MwWorker.watched, MwWorker.interest, MwWorker.interest, h.ress a ha]
  cases hr : w.ress a with
  | none => rfl
  | some r => exact congrArg (Option.getD · 0) (h.epoll a ha r hr)

theorem Rest.armed (h : Rest th w w') (hw : Armed w th asked) : Armed w' th asked where
  live := by rw [h.number]; exact hw.live
  simple := h.mode.trans hw.simple
  cfdRes := by rw [h.cfdRes, h.resl]; exact hw.cfdRes
  linked := by
    rw [h.resl]
    intro a ha
    obtain ⟨r, hr, hth, hst, hep⟩ := hw.linked a ha
    exact ⟨r, (h.ress a ha).trans hr, hth, hst, (h.epoll a ha r hr).trans hep⟩
  apart := by
    rw [h.resl]
    intro a ha b hb ra rb hra hrb
    rw [h.ress a ha] at hra
    rw [h.ress b hb] at hrb
    exact hw.apart a ha b hb ra rb hra hrb
  asked := by rw [h.resl]; exact hw.asked

theorem Armed.watched (hw : Armed w th asked) (ha : a ∈ (w.tm.threads th).resl) :
    w.watched a = if a ∈ asked then evR else 0 := by
  obtain ⟨r, hr, -, -, hep⟩ := hw.linked a ha
  rw [MwWorker.watched, MwWorker.interest, hr, Option.bind_some, hep]
  rfl

/-! ## Out of `epoll`, and into it -/

/-- `asthread_res_ev_del` changes nothing for a thread that only reads: of what has been
armed it returns at once, the status being `AS_RSTATUS_EV`, and for the others nothing was
registered. -/
theorem asthreadResEvDel_rest (hw : Armed w th asked) (ha : a ∈ (w.tm.threads th).resl) :
    ∃ w', asthreadResEvDel w a = .ok w' ∧ Rest th w w' := by
  obtain ⟨r, hr, hth, hst, hep⟩ := hw.linked a ha
  have hmod : w.CanMod r.d := by
    rw [MwWorker.CanMod, ← Option.isSome_map, hep]
    rfl
  simp only [asthreadResEvDel, MwWorker.res_eq hr, wbind_ok]
  by_cases hev : r.status = .ev
  · exact ⟨w, if_pos hev, .refl th w⟩
  rw [if_neg hev, if_pos hmod]
  have hasked : a ∉ asked := fun h => hev (hst.trans (if_pos h))
  rw [if_neg hasked] at hst hep
  refine ⟨_, rfl, rfl, rfl, rfl, rfl, fun b hb => ?_, fun b hb rb hrb => ?_⟩
  · have hsame : { r with status := .idle } = r := by rw [← hst]
    change Function.update w.ress a (some { r with status := .idle }) b = w.ress b
    rw [hsame, ← hr, Function.update_eq_self]
  · change (Function.update w.epoll r.d (some (0, a)) rb.d).map Prod.fst = _
    by_cases hd : rb.d = r.d
    · rw [hd, Function.update_self, hep]
      rfl
    · rw [Function.update_of_ne hd]

theorem thRemoveResFromEpfd_rest (hw : Armed w th asked) :
    ∃ w', thRemoveResFromEpfd w th = .ok w' ∧ Rest th w w' := by
  have hloop : ∀ (l : List Addr) (w1 : MwWorker), Rest th w w1 →
      (∀ a ∈ l, a ∈ (w.tm.threads th).resl) →
      ∃ w', l.foldlM asthreadResEvDel w1 = .ok w' ∧ Rest th w w' := by
    intro l
    induction l with
    | nil => exact fun w1 h1 _ => ⟨w1, rfl, h1⟩
    | cons a l ih =>
        intro w1 h1 hl
        have ha : a ∈ (w1.tm.threads th).resl := by
          rw [h1.resl]
          exact hl a (.head _)
        obtain ⟨w2, hrun, h2⟩ := asthreadResEvDel_rest (h1.armed hw) ha
        rw [List.foldlM_cons, hrun, wbind_ok]
        exact ih w2 (h1.trans h2) fun b hb => hl b (.tail _ hb)
  have hrun : thRemoveResFromEpfd w th = (w.tm.threads th).resl.foldlM asthreadResEvDel w := by
    simp only [thRemoveResFromEpfd, asthreadRemoveResFromEpfd, MwWorker.thread_eq hw.live, wbind_ok,
      if_pos hw.simple]
  rw [hrun]
  exact hloop _ w (.refl th w) fun _ => id

/-- What `asthread_res_ev_add` does to the resources: its own is armed, and another, which has
another descriptor, is as it was. -/
theorem asthreadResEvAdd_ress {r : AsThreadRes} {ev : BitVec 32} (hr : w.ress a = some r)
    (hep : (w.epoll r.d).isSome) (hrun : asthreadResEvAdd w a ev = .ok w') :
    w'.tm = w.tm ∧ w'.number = w.number ∧ w'.cfdRes = w.cfdRes ∧ w'.socks = w.socks
      ∧ ∀ b rb, w.ress b = some rb → (rb.d = r.d → b = a) →
        w'.ress b = some (if b = a then { rb with status := .ev } else rb)
          ∧ (w'.epoll rb.d).map Prod.fst
            = if b = a then some ev else (w.epoll rb.d).map Prod.fst := by
  have hmod : w.CanMod r.d := hep
  simp only [asthreadResEvAdd, MwWorker.res_eq hr, wbind_ok, if_pos hmod] at hrun
  cases hrun
  refine ⟨rfl, rfl, rfl, rfl, fun b rb hrb happart => ?_⟩
  change Function.update w.ress a (some { r with status := .ev }) b = _
    ∧ (Function.update w.epoll r.d (some (ev, a)) rb.d).map Prod.fst = _
  by_cases hba : b = a
  · subst hba
    rw [hr, Option.some.injEq] at hrb
    subst hrb
    rw [if_pos rfl, if_pos rfl, Function.update_self, Function.update_self]
    exact ⟨rfl, rfl⟩
  · rw [if_neg hba, if_neg hba, Function.update_of_ne hba, hrb,
      Function.update_of_ne fun hd => hba (happart hd)]
    exact ⟨rfl, rfl⟩

/-- `asthread_res_ev_add` with `EPOLLIN | EPOLLET` arms the resource, if it is not armed
already, and leaves what is registered for the others. -/
theorem asthreadResEvAdd_armed (hw : Armed w th asked) (ha : a ∈ (w.tm.threads th).resl)
    (hrun : asthreadResEvAdd w a evR = .ok w') :
    Armed w' th (asked ++ [a]) ∧ (w'.tm.threads th).resl = (w.tm.threads th).resl
      ∧ ∀ b ∈ (w.tm.threads th).resl, b ≠ a → w'.watched b = w.watched b := by
  obtain ⟨r, hr, -, -, hep⟩ := hw.linked a ha
  have hsome : (w.epoll r.d).isSome := by
    rw [← Option.isSome_map, hep]
    rfl
  obtain ⟨htm, hnum, hcfd, -, hress⟩ := asthreadResEvAdd_ress hr hsome hrun
  have hlinked : ∀ b ∈ (w.tm.threads th).resl, ∃ rb, w.ress b = some rb
      ∧ w'.ress b = some (if b = a then { rb with status := .ev } else rb)
      ∧ (w'.epoll rb.d).map Prod.fst
        = if b = a then some evR else (w.epoll rb.d).map Prod.fst := by
    intro b hb
    obtain ⟨rb, hrb, -⟩ := hw.linked b hb
    exact ⟨rb, hrb, hress b rb hrb fun hd => hw.apart b hb a ha rb r hrb hr hd⟩
  have hold : ∀ b ∈ (w.tm.threads th).resl, ∀ r', w'.ress b = some r' →
      ∃ r, w.ress b = some r ∧ r.d = r'.d := by
    intro b hb r' hr'
    obtain ⟨r, hr, hnew, -⟩ := hlinked b hb
    rw [hr', Option.some.injEq] at hnew
    refine ⟨r, hr, ?_⟩
    rw [hnew]
    split <;> rfl
  refine ⟨⟨?_, ?_, ?_, ?_, ?_, ?_⟩, by rw [htm], ?_⟩
  · rw [hnum]
    exact hw.live
  · rw [htm]
    exact hw.simple
  · rw [hcfd, htm]
    exact hw.cfdRes
  · rw [htm]
    intro b hb
    obtain ⟨r, hr, hr', hep⟩ := hlinked b hb
    obtain ⟨r0, hr0, hth, hst, hep0⟩ := hw.linked b hb
    rw [hr, Option.some.injEq] at hr0
    subst hr0
    by_cases hba : b = a
    · subst hba
      rw [if_pos rfl] at hr' hep
      exact ⟨_, hr', hth, by simp, by simpa using hep⟩
    · rw [if_neg hba] at hr' hep
      exact ⟨r, hr', hth, by simpa [hba] using hst, by simpa [hba] using hep.trans hep0⟩
  · rw [htm]
    intro b hb c hc rb rc hrb hrc hd
    obtain ⟨rb0, hrb0, hdb⟩ := hold b hb rb hrb
    obtain ⟨rc0, hrc0, hdc⟩ := hold c hc rc hrc
    exact hw.apart b hb c hc rb0 rc0 hrb0 hrc0 (by rw [hdb, hdc, hd])
  · rw [htm]
    intro b hb
    rcases List.mem_append.mp hb with hb | hb
    · exact hw.asked b hb
    · cases List.mem_singleton.mp hb
      exact ha
  · intro b hb hba
    obtain ⟨r, hr, hr', hep⟩ := hlinked b hb
    rw [if_neg hba] at hr' hep
    rw [MwWorker.watched, MwWorker.watched, MwWorker.interest, MwWorker.interest, hr', hr,
      Option.bind_some, Option.bind_some, hep]

end

/-! ## The thread -/

/-- Where a thread is that reads its sockets. -/
inductive ReadAt where
  | running
  /-- `lua_yieldk` in `read(n, timeout)` of the socket `u`, for the resource `a` -/
  | waiting (u : Addr) (n timeout : Int) (a : Addr)
  /-- `k_socket_read` of that call, resumed with `r` -/
  | resumed (u : Addr) (n timeout : Int) (a : Addr) (r : IoResume)

/-- Where the worker has the thread meanwhile -/
def ReadAt.Placed (w : MwWorker) (th : Addr) : ReadAt → Prop
  | waiting .. => Pooled w th
  | running | resumed .. => Unpooled w th

/-- Where the script is. A `read` whose time is over goes on waiting until it has
returned. -/
def ReadAt.script : ReadAt → SimpleAt Addr
  | running => .running
  | waiting _ n _ a => .waiting a n
  | resumed _ n _ a r => r.res.elim (.waiting a n) (.resumed a n)

/-- The arguments of a `read` -/
def readArgs (u : Addr) (n timeout : Int) : LuaStack :=
  [.userdata u, .integer n, .integer timeout]

/-- What `alua_resume` returns when `lcf_socket_read` has yielded. -/
def readYield (a : Addr) (secs now : Int) : LuaRun :=
  ⟨[], [], .yield [.integer lasSYieldForIo, .lightuserdata (some a), .integer lasSWaitForInput,
    .integer secs] .socketRead, now⟩

section

variable {s : SendMem} {u : Addr} {n timeout : Int} {r : IoResume} {j : Addr} {x : SendRes}

/-- `k_socket_read` of a `read`, resumed with `r` -/
def resumedRead (s : SendMem) (u : Addr) (n timeout : Int) (r : IoResume) :
    (Int → Nat → RecvOutcome) → SreadEnd :=
  kSocketRead s .yield (readArgs u n timeout ++ r.args)

theorem resumedRead_for (hr : r.res = some j) (hx : s.ress j = some x) :
    ReadsFrom (resumedRead s u n timeout r) x.fd (sreadLen n) := by
  cases r with
  | ready res io =>
      cases hr
      exact kSocketRead_resumed hx (.inl rfl)
  | error res errno =>
      cases hr
      exact kSocketRead_resumed hx (.inr rfl)
  | timeout => cases hr

theorem resumedRead_timeout (hr : r.res = none) (read : Int → Nat → RecvOutcome) :
    resumedRead s u n timeout r read = .returned ⟨0, none, some eTimedout⟩ := by
  cases r with
  | ready res io => cases hr
  | error res errno => cases hr
  | timeout => exact kSocketRead_timeout s u n timeout read

end

/-- A thread of the worker `w`, with the connections of its resources. What is
registered for them is in `w`, and their `watch` is not looked at. -/
structure ReadThread where
  w : MwWorker
  pc : ReadAt
  conns : Addr → Inbound
  asked : List Addr
  log : List (ReadEntry Addr)

section

variable {w w' w'' : MwWorker} {th a : Addr} {secs now : Int}

/-- `asthread_th_del_from_pool` of a thread that is in a pool takes it out, and does nothing
else. -/
theorem delFromPool_unpooled (hw : Pooled w th) :
    ∃ w', Settles (fun k => delFromPool k w th) (.ok w') ∧ SameCore w w' ∧ Unpooled w' th := by
  obtain ⟨members, out, p, hsched, hp⟩ := hw
  obtain ⟨-, hnum, hst⟩ := hsched.member p th hp
  have hnot : th ∉ out := fun hmem => (hsched.outside th hmem).2.2 p hp
  obtain ⟨w', members', hrun, hsched', hcore, -⟩ := delFromPool_spec hsched hnot hnum hst
  exact ⟨w', hrun, hcore, members', _, hsched', .head _⟩

/-- In `dispatch` of an event for a resource of the thread, taking it out of its pool and its
resources out of `epoll` is all that happens up to `thread_resume`. -/
theorem dispatch_resumes (hw : Pooled w th) {e : EpollEvent} {r : AsThreadRes}
    (hr : w.ress e.ptr = some r) (hth : r.th = some th) (hcfd : e.ptr ≠ w.cfdRes)
    (hdel : Settles (fun k => delFromPool k w th) (.ok w'))
    (hrun : thRemoveResFromEpfd w' th = .ok w'') (lua : Lua) :
    ∃ k, ∀ k' ≥ k, dispatch lua k' w e = threadResume lua k' w'' th (resumeOf e).args := by
  obtain ⟨members, out, p, hsched, hp⟩ := hw
  obtain ⟨-, hnum, hst⟩ := hsched.member p th hp
  obtain ⟨k, hk⟩ := hdel
  refine ⟨k, fun k' hk' => ?_⟩
  have hdel' : delFromPool k' w th = .ok w' := hk k' hk'
  rw [dispatch_resumeOf lua k' hcfd]
  simp only [handleFd, MwWorker.res_eq hr, wbind_ok, hth, MwWorker.thread_eq hnum, if_neg hst,
    hdel', hrun]

/-- A yield that does not stop the thread leaves it in a pool. -/
theorem afterResume_pooled {run : LuaRun} (hw : Unpooled w th)
    (hkeeps : ∀ k, KeepsStops w (afterResume k w th run))
    (hrun : Settles (fun k => afterResume k w th run) (.ok w')) : Pooled w' th := by
  obtain ⟨members, out, hsched, hout⟩ := hw
  obtain ⟨hnum, hst, -⟩ := hsched.outside th hout
  have hgone := (afterResume_flow (upholds_true idleLua) hsched hout trivial run).of_settles hrun
  obtain ⟨members', hsched'⟩ := hgone.sched
  have hnum' : (w'.number th).isSome := by
    rw [hgone.number]
    exact hnum
  have hst' : (w'.tm.threads th).status ≠ .stop := by
    intro hstop
    obtain ⟨k, hk⟩ := hrun
    have hstops := (hkeeps k).of_ok (hk k (Nat.le_refl k))
    have hmem := (hsched'.stopped th).mpr ⟨hnum', hstop⟩
    rw [hstops] at hmem
    exact hst ((hsched.stopped th).mp hmem).2
  have hnot : th ∉ out.erase th := fun hmem => (hsched.out_nodup.mem_erase_iff.mp hmem).1 rfl
  obtain ⟨p, hp⟩ := hsched'.waiting th hnot hnum' hst'
  exact ⟨members', _, p, hsched', hp⟩

/-- `th_yield_for_io` on a resource that is there moves the thread and then calls
`asthread_res_ev_add`. -/
theorem thYieldForIo_adds {k : Nat} {T : LuaStack} {kont : Kont}
    (hT : (T.top 3).toUserdata = some a) (hrun : thYieldForIo k w th T now kont = .ok w') :
    ∃ et w1, asthreadThToIowait k w th et ioPool = .ok w1 ∧
      asthreadResEvAdd (noteWait w1 th a kont) a
        (if cInt (T.top 2).toInteger = lasSWaitForInput then epollIn ||| epollEt
          else epollOut ||| epollEt) = .ok w' := by
  rw [thYieldForIo, hT] at hrun
  dsimp only at hrun
  generalize now + _ = et at hrun
  cases hwait : asthreadThToIowait k w th et ioPool with
  | error e =>
      rw [hwait] at hrun
      cases hrun
  | ok w1 =>
      rw [hwait, wbind_ok] at hrun
      cases hr : w1.ress a with
      | none =>
          rw [hr] at hrun
          cases hrun
      | some r =>
          rw [hr] at hrun
          exact ⟨et, w1, hwait, hrun⟩

/-- Besides moving the thread, a `read` that yields is `asthread_res_ev_add` with `EPOLLIN |
EPOLLET`. -/
theorem afterResume_adds {k : Nat} (hrun : afterResume k w th (readYield a secs now) = .ok w') :
    ∃ w1, Rest th w w1 ∧ asthreadResEvAdd w1 a evR = .ok w' := by
  change thYieldForIo k w th _ now .socketRead = .ok w' at hrun
  obtain ⟨et, w1, hwait, hadd⟩ := thYieldForIo_adds rfl hrun
  have hrest : Rest th w w1 := .of_core ((asthreadThToIowait_core k w th et ioPool).of_ok hwait)
  exact ⟨noteWait w1 th a .socketRead,
    hrest.trans ⟨rfl, rfl, rfl, rfl, fun _ _ => rfl, fun _ _ _ _ => rfl⟩, hadd⟩

end

namespace ReadThread

/-- The connection of `a`, as `epoll` looks at it -/
def inbound (s : ReadThread) (a : Addr) : Inbound := { s.conns a with watch := s.w.watched a }

def setConn (s : ReadThread) (a : Addr) (c : Inbound) : ReadThread :=
  { s with conns := Function.update s.conns a c }

/-- `read` of the resource `a` returns. -/
def returns (s : ReadThread) (a : Addr) (source : Option Addr) (r : Sread) : ReadThread :=
  { s with pc := .running, log := s.log ++ [⟨a, source, r⟩] }

/-- `read(n, timeout)` of the socket `u` is called, and leaves the worker as `w'`. -/
def asks (s : ReadThread) (u : Addr) (n timeout : Int) (a : Addr) (w' : MwWorker) : ReadThread :=
  { s.setConn a (s.inbound a).relook with
    w := w', pc := .waiting u n timeout a, asked := s.asked ++ [a] }

/-- The call goes on with `r`, and the worker is `w'`. -/
def resumes (s : ReadThread) (u : Addr) (n timeout : Int) (a : Addr) (r : IoResume)
    (w' : MwWorker) : ReadThread :=
  { s with w := w', pc := .resumed u n timeout a r }

/-- One step of the network, of the worker, or of the thread `th`. -/
inductive Step (th : Addr) : ReadThread → ReadThread → Prop
  | arrives {s : ReadThread} (j : Addr) (bytes : List (BitVec 8)) :
      j ∈ (s.w.tm.threads th).resl → ¬(s.conns j).fin → ¬(s.conns j).broken →
        Step th s (s.setConn j ((s.inbound j).arrives bytes))
  | finishes {s : ReadThread} (j : Addr) : j ∈ (s.w.tm.threads th).resl → ¬(s.conns j).fin →
      ¬(s.conns j).broken → Step th s (s.setConn j (s.inbound j).finishes)
  | breaks {s : ReadThread} (j : Addr) : j ∈ (s.w.tm.threads th).resl →
      Step th s (s.setConn j (s.inbound j).breaks)
  /-- `epoll_ctl` has been called for it. -/
  | relooks {s : ReadThread} (j : Addr) : j ∈ (s.w.tm.threads th).resl →
      Step th s (s.setConn j (s.inbound j).relook)
  /-- The worker goes on with other threads. -/
  | rest {s : ReadThread} {w' : MwWorker} : Rest th s.w w' → s.pc.Placed w' th →
      Step th s { s with w := w' }
  /-- `lcf_socket_read` yields, and so `thread_resume` comes to its end. -/
  | asks {s : ReadThread} {u : Addr} {n timeout : Int} {a : Addr} {secs now : Int} {w' : MwWorker} :
      s.pc = .running → a ∈ (s.w.tm.threads th).resl →
      lcfSocketRead s.w.sendMem (readArgs u n timeout) = .yielded a secs →
      Settles (fun k => afterResume k s.w th (readYield a secs now)) (.ok w') →
        Step th s (s.asks u n timeout a w')
  /-- `epoll_wait` has nothing to report. -/
  | skip {s : ReadThread} (j : Addr) (writable : Bool) : j ∈ (s.w.tm.threads th).resl →
      (s.conns j).edge → (s.inbound j).events writable = 0 →
        Step th s (s.setConn j (s.inbound j).seen)
  /-- `dispatch` of an event for a resource of the thread, up to `thread_resume` -/
  | wakes {s : ReadThread} {u : Addr} {n timeout : Int} {a : Addr} (e : EpollEvent)
      (writable : Bool) {w1 w2 : MwWorker} : s.pc = .waiting u n timeout a →
      e.ptr ∈ (s.w.tm.threads th).resl → (s.conns e.ptr).edge →
      e.events = (s.inbound e.ptr).events writable → e.events ≠ 0 →
      Settles (fun k => delFromPool k s.w th) (.ok w1) → thRemoveResFromEpfd w1 th = .ok w2 →
        Step th s ((s.setConn e.ptr (s.inbound e.ptr).seen).resumes u n timeout a (resumeOf e) w2)
  /-- `p_io_timeout_thread`, in the pass that has taken the thread from its pool -/
  | timeout {s : ReadThread} {u : Addr} {n timeout : Int} {a : Addr} {w1 w2 : MwWorker} :
      s.pc = .waiting u n timeout a → Rest th s.w w1 → Unpooled w1 th →
      thRemoveResFromEpfd w1 th = .ok w2 →
        Step th s (s.resumes u n timeout a .timeout w2)
  /-- `k_socket_read` returns what `read` answers for the descriptor of `j`. -/
  | reads {s : ReadThread} {u : Addr} {n timeout : Int} {a : Addr} {r : IoResume} {j : Addr}
      {res : AsThreadRes} {m : Nat} {o : RecvOutcome} {c : Inbound} :
      s.pc = .resumed u n timeout a r → j ∈ (s.w.tm.threads th).resl → s.w.ress j = some res →
      ReadsFrom (resumedRead s.w.sendMem u n timeout r) res.d m →
      (s.inbound j).Reads m o c → Step th s ((s.setConn j c).returns a (some j) o.sread)
  /-- `k_socket_read` returns without a `read`. -/
  | unread {s : ReadThread} {u : Addr} {n timeout : Int} {a : Addr} {r : IoResume}
      {result : Sread} :
      s.pc = .resumed u n timeout a r →
      (∀ read, resumedRead s.w.sendMem u n timeout r read = .returned result) →
      Step th s (s.returns a none result)

/-- From a thread that has not waited for any of its resources. -/
inductive Reach (th : Addr) : ReadThread → Prop
  | start {s : ReadThread} : s.pc = .running → s.asked = [] → s.log = [] → Armed s.w th [] →
      Unpooled s.w th → (∀ a, (s.conns a).arrived = (s.conns a).queue) → Reach th s
  | step {s s' : ReadThread} : Reach th s → Step th s s' → Reach th s'

/-! ## The script -/

/-- A connection that is none of the thread's -/
def noConn : Inbound := ⟨0, [], false, false, false, [], []⟩

/-- What the script sees. -/
def script (s : ReadThread) (th : Addr) : SimpleScript Addr where
  pc := s.pc.script
  socks a := if a ∈ (s.w.tm.threads th).resl then s.inbound a else noConn
  asked := s.asked
  log := s.log

/-- What a thread is like between two steps. -/
structure Good (s : ReadThread) (th : Addr) : Prop where
  armed : Armed s.w th s.asked
  placed : s.pc.Placed s.w th
  resumed : ∀ u n timeout a r, s.pc = .resumed u n timeout a r →
    ∀ j, r.res = some j → j ∈ (s.w.tm.threads th).resl

section

variable {th : Addr} {s s' : ReadThread} {j : Addr} {c : Inbound}

theorem script_socks (hj : j ∈ (s.w.tm.threads th).resl) : (s.script th).socks j = s.inbound j :=
  if_pos hj

theorem script_setConn (hj : j ∈ (s.w.tm.threads th).resl) (hc : c.watch = s.w.watched j) :
    (s.setConn j c).script th = (s.script th).setSock j c := by
  have hsocks : ((s.setConn j c).script th).socks = Function.update (s.script th).socks j c := by
    funext a
    by_cases haj : a = j
    · subst haj
      rw [Function.update_self]
      refine (script_socks (s := s.setConn a c) hj).trans ?_
      change { Function.update s.conns a c a with watch := s.w.watched a } = c
      rw [Function.update_self, ← hc]
    · rw [Function.update_of_ne haj]
      change (if a ∈ (s.w.tm.threads th).resl then
        { Function.update s.conns j c a with watch := s.w.watched a } else noConn) = _
      rw [Function.update_of_ne haj]
      rfl
  exact congrArg (fun socks => { (s.script th) with socks := socks }) hsocks

theorem script_rest {w' : MwWorker} (h : Rest th s.w w') :
    ({ s with w := w' } : ReadThread).script th = s.script th := by
  have hsocks : (({ s with w := w' } : ReadThread).script th).socks = (s.script th).socks := by
    funext a
    change (if a ∈ (w'.tm.threads th).resl then
      { s.conns a with watch := w'.watched a } else noConn)
      = _
    rw [h.resl]
    by_cases ha : a ∈ (s.w.tm.threads th).resl
    · rw [if_pos ha, h.watched ha, script_socks ha]
      rfl
    · rw [if_neg ha]
      exact (if_neg ha).symm
  exact congrArg (fun socks => { (s.script th) with socks := socks }) hsocks

/-! ## What a step is for the script -/

/-- A step of the script, or none -/
def Seen (s s' : SimpleScript Addr) : Prop := s' = s ∨ SimpleScript.Step s s'

theorem Good.setConn (h : s.Good th) (j : Addr) (c : Inbound) : (s.setConn j c).Good th :=
  ⟨h.armed, h.placed, h.resumed⟩

/-- Something happens to one connection, of which `watch` stays what is registered: the
script sees the same happen. -/
theorem Good.conn (h : s.Good th) (hj : j ∈ (s.w.tm.threads th).resl) (hc : c.watch = s.w.watched j)
    (hstep : SimpleScript.Step (s.script th) ((s.script th).setSock j c)) :
    (s.setConn j c).Good th ∧ Seen (s.script th) ((s.setConn j c).script th) := by
  rw [script_setConn hj hc]
  exact ⟨h.setConn j c, .inr hstep⟩

/-- `read` waits, and its resource is armed; the script sees a call of `read`. -/
theorem Good.asks (h : s.Good th) {u : Addr} {n timeout : Int} {a : Addr} {secs now : Int}
    {w' : MwWorker} (hpc : s.pc = .running) (ha : a ∈ (s.w.tm.threads th).resl)
    (hrun : Settles (fun k => afterResume k s.w th (readYield a secs now)) (.ok w')) :
    (s.asks u n timeout a w').Good th
      ∧ SimpleScript.Step (s.script th) ((s.asks u n timeout a w').script th) := by
  have hplaced : Unpooled s.w th := by
    have hplaced := h.placed
    rwa [hpc] at hplaced
  have hkeeps : ∀ k, KeepsStops s.w (afterResume k s.w th (readYield a secs now)) :=
    fun k => thYieldForIo_keeps k s.w th _ now .socketRead
  have hpooled := afterResume_pooled hplaced hkeeps hrun
  obtain ⟨k, hk⟩ := hrun
  obtain ⟨w1, hrest, hadd⟩ := afterResume_adds (hk k (Nat.le_refl k))
  have hmem : ∀ b, b ∈ (s.w.tm.threads th).resl → b ∈ (w1.tm.threads th).resl := by
    intro b hb
    rwa [hrest.resl]
  obtain ⟨harmed, hresl, hwatch⟩ := asthreadResEvAdd_armed (hrest.armed h.armed) (hmem a ha) hadd
  rw [hrest.resl] at hresl
  refine ⟨⟨harmed, hpooled, nofun⟩, ?_⟩
  have hsocks : ((s.asks u n timeout a w').script th).socks
      = Function.update (s.script th).socks a (s.inbound a).arm := by
    funext b
    change (if b ∈ (w'.tm.threads th).resl then
      { Function.update s.conns a (s.inbound a).relook b with watch := w'.watched b } else noConn)
        = _
    rw [hresl]
    by_cases hb : b ∈ (s.w.tm.threads th).resl
    · rw [if_pos hb]
      by_cases hba : b = a
      · subst hba
        have hw : w'.watched b = evR := by
          rw [harmed.watched (by rwa [hresl]), if_pos (List.mem_append_right _ (.head _))]
        rw [Function.update_self, Function.update_self, hw]
        rfl
      · rw [Function.update_of_ne hba, Function.update_of_ne hba, hwatch b (hmem b hb) hba,
          hrest.watched hb, script_socks hb]
        rfl
    · have hba : b ≠ a := fun hba => hb (hba ▸ ha)
      rw [if_neg hb, Function.update_of_ne hba]
      exact (if_neg hb).symm
  have hstep := SimpleScript.Step.asks (s := s.script th) a n (congrArg ReadAt.script hpc)
  rw [SimpleScript.asks, SimpleScript.setSock, script_socks ha, ← hsocks] at hstep
  exact hstep

/-- The thread is resumed, with its resources out of `epoll` as far as `asthread_res_ev_del`
takes them, which is not at all. -/
theorem Good.resumes (h : s.Good th) {u : Addr} {n timeout : Int} {a : Addr} {r : IoResume}
    {w1 w2 : MwWorker} (hrest : Rest th s.w w1) (hout : Unpooled w1 th)
    (hrun : thRemoveResFromEpfd w1 th = .ok w2)
    (hr : ∀ j, r.res = some j → j ∈ (s.w.tm.threads th).resl) :
    (s.resumes u n timeout a r w2).Good th
      ∧ (s.resumes u n timeout a r w2).script th
        = { s.script th with pc := (ReadAt.resumed u n timeout a r).script } := by
  obtain ⟨w2', hrun', hrest'⟩ := thRemoveResFromEpfd_rest (hrest.armed h.armed)
  rw [hrun] at hrun'
  cases hrun'
  have hall := hrest.trans hrest'
  obtain ⟨members, out, hsched, hmem⟩ := hout
  have hsame := (thRemoveResFromEpfd_same w1 th).of_ok hrun
  refine ⟨⟨hall.armed h.armed, ⟨members, out, hsched.congr hsame, hmem⟩, ?_⟩, ?_⟩
  · rintro _ _ _ _ _ ⟨⟩ j hj
    change j ∈ (w2.tm.threads th).resl
    rw [hall.resl]
    exact hr j hj
  · have hscript := script_rest (s := { s with pc := .resumed u n timeout a r }) hall
    exact hscript

/-- An event resumes the call for the resource of the event, which may be another than it
waits for. -/
theorem Good.wakes (h : s.Good th) {u : Addr} {n timeout : Int} {a : Addr} {e : EpollEvent}
    {writable : Bool} {w1 w2 : MwWorker} (hpc : s.pc = .waiting u n timeout a)
    (hptr : e.ptr ∈ (s.w.tm.threads th).resl) (hedge : (s.conns e.ptr).edge)
    (hevents : e.events = (s.inbound e.ptr).events writable) (hsome : e.events ≠ 0)
    (hdel : Settles (fun k => delFromPool k s.w th) (.ok w1))
    (hrun : thRemoveResFromEpfd w1 th = .ok w2) :
    ((s.setConn e.ptr (s.inbound e.ptr).seen).resumes u n timeout a (resumeOf e) w2).Good th
      ∧ SimpleScript.Step (s.script th)
        (((s.setConn e.ptr (s.inbound e.ptr).seen).resumes u n timeout a (resumeOf e) w2).script
          th) := by
  have hpooled : Pooled s.w th := by
    have hplaced := h.placed
    rwa [hpc] at hplaced
  obtain ⟨w1', hdel', hcore, hout⟩ := delFromPool_unpooled hpooled
  cases hdel.unique hdel'
  have hptr' : ∀ j, (resumeOf e).res = some j → j ∈ (s.w.tm.threads th).resl := by
    intro j hj
    rw [resumeOf_res, Option.some.injEq] at hj
    exact hj ▸ hptr
  have hseen := h.setConn e.ptr (s.inbound e.ptr).seen
  obtain ⟨hgood, hscript⟩ :=
    @Good.resumes th _ hseen u n timeout a _ _ _ (.of_core hcore) hout hrun hptr'
  refine ⟨hgood, ?_⟩
  have hstep := SimpleScript.Step.wakes (s := s.script th) (i := a) (n := n) e.ptr writable
    (congrArg ReadAt.script hpc) (by rw [script_socks hptr]; exact hedge)
    (by rw [script_socks hptr, ← hevents]; exact hsome)
  rw [hscript, script_setConn hptr rfl, ReadAt.script, resumeOf_res]
  rw [script_socks hptr] at hstep
  exact hstep

/-- `read` returns, and the thread runs on with the worker as it is. -/
theorem Good.returns (h : s.Good th) {u : Addr} {n timeout : Int} {a : Addr} {r : IoResume}
    (hpc : s.pc = .resumed u n timeout a r) (source : Option Addr) (result : Sread) :
    (s.returns a source result).Good th := by
  have hplaced := h.placed
  rw [hpc] at hplaced
  exact ⟨h.armed, hplaced, nofun⟩

/-- `k_socket_read` returns what `read` answers for the descriptor of `j`. So it was resumed
for a resource, since a timeout returns without a `read`, and for that of `j`, as
descriptors differ. -/
theorem Good.reads (h : s.Good th) {u : Addr} {n timeout : Int} {a : Addr} {r : IoResume}
    {res : AsThreadRes} {m : Nat} {o : RecvOutcome} (hpc : s.pc = .resumed u n timeout a r)
    (hj : j ∈ (s.w.tm.threads th).resl) (hres : s.w.ress j = some res)
    (hcall : ReadsFrom (resumedRead s.w.sendMem u n timeout r) res.d m)
    (hread : (s.inbound j).Reads m o c) :
    ((s.setConn j c).returns a (some j) o.sread).Good th
      ∧ SimpleScript.Step (s.script th)
        (((s.setConn j c).returns a (some j) o.sread).script th) := by
  refine ⟨(h.setConn j c).returns hpc _ _, ?_⟩
  have hfor : r.res = some j ∧ m = sreadLen n := by
    cases hr : r.res with
    | none =>
        exact absurd (resumedRead_timeout hr) (hcall.not_const _)
    | some j' =>
        have hj' := h.resumed u n timeout a r hpc j' hr
        obtain ⟨res', hres', -⟩ := h.armed.linked j' hj'
        obtain ⟨hd, hm⟩ := hcall.unique (resumedRead_for hr (MwWorker.sendMem_ress hres'))
        exact ⟨congrArg some (h.armed.apart j' hj' j hj res' res hres' hres hd.symm), hm⟩
  obtain ⟨hr, rfl⟩ := hfor
  have hpc' : (s.script th).pc = .resumed a n j := by
    rw [script, hpc, ReadAt.script, hr]
    rfl
  have hwatch : c.watch = s.w.watched j := by cases hread <;> rfl
  have hstep := SimpleScript.Step.reads (s := s.script th) (c := c) hpc'
    (by rw [script_socks hj]; exact hread)
  rw [← script_setConn hj hwatch] at hstep
  exact hstep

/-- `k_socket_read` returns the same whatever `read` would answer, so it was resumed for a
timeout. -/
theorem Good.unread (h : s.Good th) {u : Addr} {n timeout : Int} {a : Addr} {r : IoResume}
    {result : Sread} (hpc : s.pc = .resumed u n timeout a r)
    (hcall : ∀ read, resumedRead s.w.sendMem u n timeout r read = .returned result) :
    (s.returns a none result).Good th
      ∧ SimpleScript.Step (s.script th) ((s.returns a none result).script th) := by
  refine ⟨h.returns hpc _ _, ?_⟩
  cases hr : r.res with
  | some j =>
      obtain ⟨res, hres, -⟩ := h.armed.linked j (h.resumed u n timeout a r hpc j hr)
      have hread : ReadsFrom (resumedRead s.w.sendMem u n timeout r) res.d (sreadLen n) :=
        resumedRead_for hr (MwWorker.sendMem_ress hres)
      exact absurd hcall (hread.not_const _)
  | none =>
      have hresult := (resumedRead_timeout hr _).symm.trans (hcall fun _ _ => .failed 0)
      cases hresult
      have hpc' : (s.script th).pc = .waiting a n := by
        rw [script, hpc, ReadAt.script, hr]
        rfl
      exact SimpleScript.Step.timeout hpc'

/-- Every step of the thread is one of the script, or is not to be seen there. -/
theorem Good.step (h : s.Good th) (hstep : Step th s s') :
    s'.Good th ∧ Seen (s.script th) (s'.script th) := by
  cases hstep with
  | arrives j bytes hj hfin hbroken =>
      have hstep := SimpleScript.Step.arrives (s := s.script th) j bytes
        (by rwa [script_socks hj]) (by rwa [script_socks hj])
      rw [script_socks hj] at hstep
      exact h.conn hj rfl hstep
  | finishes j hj hfin hbroken =>
      have hstep := SimpleScript.Step.finishes (s := s.script th) j
        (by rwa [script_socks hj]) (by rwa [script_socks hj])
      rw [script_socks hj] at hstep
      exact h.conn hj rfl hstep
  | breaks j hj =>
      have hstep := SimpleScript.Step.breaks (s := s.script th) j
      rw [script_socks hj] at hstep
      exact h.conn hj rfl hstep
  | relooks j hj =>
      have hstep := SimpleScript.Step.relooks (s := s.script th) j
      rw [script_socks hj] at hstep
      exact h.conn hj rfl hstep
  | rest hrest hplaced =>
      refine ⟨⟨hrest.armed h.armed, hplaced, fun u n timeout a r hpc j hr => ?_⟩,
        .inl (script_rest hrest)⟩
      rw [hrest.resl]
      exact h.resumed u n timeout a r hpc j hr
  | asks hpc ha _ hrun =>
      obtain ⟨hgood, hseen⟩ := h.asks hpc ha hrun
      exact ⟨hgood, .inr hseen⟩
  | skip j writable hj hedge hnone =>
      have hstep := SimpleScript.Step.skip (s := s.script th) j writable
        (by rwa [script_socks hj]) (by rwa [script_socks hj])
      rw [script_socks hj] at hstep
      exact h.conn hj rfl hstep
  | wakes e writable hpc hptr hedge hevents hsome hdel hrun =>
      obtain ⟨hgood, hseen⟩ := h.wakes hpc hptr hedge hevents hsome hdel hrun
      exact ⟨hgood, .inr hseen⟩
  | timeout hpc hrest hout hrun =>
      obtain ⟨hgood, hscript⟩ := h.resumes hrest hout hrun (r := .timeout) (by rintro j ⟨⟩)
      refine ⟨hgood, .inl (hscript.trans ?_)⟩
      have hpc' := congrArg ReadAt.script hpc
      rw [script, hpc']
      rfl
  | reads hpc hj hres hcall hread =>
      obtain ⟨hgood, hseen⟩ := h.reads hpc hj hres hcall hread
      exact ⟨hgood, .inr hseen⟩
  | unread hpc hcall =>
      obtain ⟨hgood, hseen⟩ := h.unread hpc hcall
      exact ⟨hgood, .inr hseen⟩

theorem Reach.good (h : Reach th s) : s.Good th := by
  induction h with
  | start hpc hasked _ harmed hout =>
      refine ⟨hasked ▸ harmed, ?_, fun u n timeout a r hpc' => ?_⟩
      · rw [hpc]
        exact hout
      · rw [hpc] at hpc'
        cases hpc'
  | step _ hstep ih => exact (ih.step hstep).1

/-- What the script sees is a run of `SimpleScript`, so `simpleScript_reads` holds for the
thread. -/
theorem Reach.script (h : Reach th s) : SimpleScript.Reach (s.script th) := by
  induction h with
  | @start s hpc hasked hlog harmed hout hconns =>
      refine .start (congrArg ReadAt.script hpc) hasked hlog fun j => ?_
      by_cases hj : j ∈ (s.w.tm.threads th).resl
      · rw [script_socks hj]
        refine ⟨?_, hconns j⟩
        change s.w.watched j = 0
        rw [harmed.watched hj, if_neg List.not_mem_nil]
      · rw [show (s.script th).socks j = noConn from if_neg hj]
        exact ⟨rfl, rfl⟩
  | step hreach hstep ih =>
      rcases (hreach.good.step hstep).2 with hsame | hseen
      · rw [hsame]
        exact ih
      · exact ih.step hseen

/-- What has arrived on a connection of the thread is what calls of `read` have returned of
it, whichever socket they were for, and what can still be read. -/
theorem readThread_returned (h : Reach th s) (hj : j ∈ (s.w.tm.threads th).resl) :
    (s.conns j).arrived = (s.script th).bytesFrom j ++ (s.conns j).queue := by
  have hbytes := h.script.inv.bytes j
  rwa [script_socks hj] at hbytes

/-- In `dispatch`, what `Step.wakes` does is all that happens up to `thread_resume`. -/
theorem Good.dispatch (h : s.Good th) {u : Addr} {n timeout : Int} {a : Addr} {e : EpollEvent}
    {w1 w2 : MwWorker} (hpc : s.pc = .waiting u n timeout a)
    (hptr : e.ptr ∈ (s.w.tm.threads th).resl)
    (hdel : Settles (fun k => delFromPool k s.w th) (.ok w1))
    (hrun : thRemoveResFromEpfd w1 th = .ok w2) (lua : Lua) :
    ∃ k, ∀ k' ≥ k, dispatch lua k' s.w e = threadResume lua k' w2 th (resumeOf e).args := by
  have hpooled : Pooled s.w th := by
    have hplaced := h.placed
    rwa [hpc] at hplaced
  obtain ⟨r, hr, hth, -⟩ := h.armed.linked e.ptr hptr
  have hcfd : e.ptr ≠ s.w.cfdRes := fun he => h.armed.cfdRes (he ▸ hptr)
  exact dispatch_resumes hpooled hr hth hcfd hdel hrun lua

/-- While a `read` of the resource `a` waits, the peer of any resource on which `read` has
been called, if it is still there, can have it return what it sends: the bytes come and are
reported, for the resource is still registered; `dispatch` resumes the call for that
resource, and `k_socket_read` reads from there. -/
theorem readThread_mixes (h : Reach th s) {u : Addr} {n timeout : Int} {a : Addr}
    (hpc : s.pc = .waiting u n timeout a) (hj : j ∈ s.asked) (hfin : ¬(s.conns j).fin)
    (hbroken : ¬(s.conns j).broken) (b : BitVec 8) :
    ∃ s1 s2 s3 : ReadThread, ∃ e : EpollEvent, Step th s s1 ∧ Step th s1 s2 ∧ Step th s2 s3
      ∧ e.ptr = j ∧ (∀ lua, ∃ k, ∀ k' ≥ k,
        dispatch lua k' s1.w e = threadResume lua k' s2.w th (resumeOf e).args)
      ∧ s3.pc = .running ∧ s3.log = s.log ++ [⟨a, some j,
        (RecvOutcome.got (((s.conns j).queue ++ [b]).take (sreadLen n))).sread⟩] := by
  have hgood := h.good
  have hmem := hgood.armed.asked j hj
  have hwatch : s.w.watched j = evR := (hgood.armed.watched hmem).trans (if_pos hj)
  let c : Inbound := (s.inbound j).arrives [b]
  let s1 : ReadThread := s.setConn j c
  have harrives : Step th s s1 := .arrives j [b] hmem hfin hbroken
  have hgood1 : s1.Good th := hgood.setConn j c
  have hconn : s1.conns j = c := Function.update_self ..
  have hinbound : s1.inbound j = c := by
    change { s1.conns j with watch := s.w.watched j } = c
    rw [hconn]
    rfl
  have hread : c.readable := by simp [c, Inbound.readable, Inbound.arrives]
  have hedge : c.edge := by
    have hin : hasFlag (s.inbound j).watch epollIn := by
      change hasFlag (s.w.watched j) epollIn
      rw [hwatch]
      decide
    exact Bool.or_eq_true_iff.mpr (.inr hin)
  let e : EpollEvent := ⟨c.events false, j, [], 0⟩
  have hsome : e.events ≠ 0 :=
    (SimpleScript.events_ne_zero (.inl hwatch)).mpr ⟨hread, .inl hwatch⟩
  have hpooled : Pooled s.w th := by
    have hplaced := hgood.placed
    rwa [hpc] at hplaced
  obtain ⟨w1, hdel, hcore, -⟩ := delFromPool_unpooled hpooled
  have hrest : Rest th s1.w w1 := .of_core hcore
  obtain ⟨w2, hrun, hrest'⟩ := thRemoveResFromEpfd_rest (hrest.armed hgood.armed)
  let s2 : ReadThread := (s1.setConn j (s1.inbound j).seen).resumes u n timeout a (resumeOf e) w2
  have hwakes : Step th s1 s2 :=
    .wakes e false hpc hmem (by rw [hconn]; exact hedge) (by rw [hinbound]) hsome hdel hrun
  have hgood2 := (hgood1.step hwakes).1
  have hmem2 : j ∈ (s2.w.tm.threads th).resl := by
    change j ∈ (w2.tm.threads th).resl
    rw [(hrest.trans hrest').resl]
    exact hmem
  obtain ⟨res, hres, -⟩ := hgood2.armed.linked j hmem2
  let bytes := ((s.conns j).queue ++ [b]).take (sreadLen n)
  let left : Inbound := (s2.inbound j).takes (((s.conns j).queue ++ [b]).drop (sreadLen n))
  have hqueue : (s2.inbound j).queue = (s.conns j).queue ++ [b] := by
    change (Function.update s1.conns j (s1.inbound j).seen j).queue = _
    rw [Function.update_self, hinbound]
    rfl
  have hreads : (s2.inbound j).Reads (sreadLen n) (.got bytes) left := by
    refine .got ?_ ?_ (List.length_take_le ..)
    · rw [hqueue, List.take_append_drop]
    · intro hnil
      rcases List.take_eq_nil_iff.mp hnil with hzero | hnil
      · exact absurd hzero (Nat.ne_of_gt (sreadLen_pos n))
      · exact List.append_ne_nil_of_right_ne_nil _ (List.cons_ne_nil b []) hnil
  have hreturns :
      Step th s2 ((s2.setConn j left).returns a (some j) (RecvOutcome.got bytes).sread) :=
    .reads rfl hmem2 hres (resumedRead_for (resumeOf_res e) (MwWorker.sendMem_ress hres)) hreads
  have hdispatch : ∀ lua, ∃ k, ∀ k' ≥ k,
      dispatch lua k' s1.w e = threadResume lua k' s2.w th (resumeOf e).args :=
    hgood1.dispatch hpc hmem hdel hrun
  exact ⟨s1, s2, _, e, harrives, hwakes, hreturns, rfl, hdispatch, rfl, rfl⟩

end

/-! ## A thread with two connections -/

/-- The worker when the thread 10 has got its connection, whose resource is 20. -/
def oneConnection : MwWorker :=
  ((newThread idleLua startWorker ⟨4, some 10, true, some 20⟩).toOption.map
    Prod.fst).getD startWorker

/-- Its script has made a socket, whose resource is 21. -/
def twoConnections : MwWorker :=
  ([.getMsock 29, .socketNew 30 (some 21) (some 5)].foldlM (runAct 10) oneConnection).toOption.getD
    startWorker

theorem twoConnections_armed : Armed twoConnections 10 [] := by
  have hresl : (twoConnections.tm.threads 10).resl = [21, 20] := rfl
  refine ⟨rfl, rfl, by decide, ?_, ?_, nofun⟩
  · rw [hresl]
    intro a ha
    rcases List.mem_cons.mp ha with rfl | ha
    · exact ⟨_, rfl, rfl, rfl, rfl⟩
    · obtain rfl := List.mem_singleton.mp ha
      exact ⟨_, rfl, rfl, rfl, rfl⟩
  · rw [hresl]
    have h21 : twoConnections.ress 21 = some ⟨true, .idle, some 10, 5, 2⟩ := rfl
    have h20 : twoConnections.ress 20 = some ⟨true, .idle, some 10, 4, 1⟩ := rfl
    intro a ha b hb ra rb hra hrb hd
    simp only [List.mem_cons, List.not_mem_nil, or_false] at ha hb
    rcases ha with rfl | rfl <;> rcases hb with rfl | rfl
    · rfl
    · rw [h21, Option.some.injEq] at hra
      rw [h20, Option.some.injEq] at hrb
      subst hra hrb
      exact absurd hd (by decide)
    · rw [h20, Option.some.injEq] at hra
      rw [h21, Option.some.injEq] at hrb
      subst hra hrb
      exact absurd hd (by decide)
    · rfl

theorem twoConnections_unpooled : Unpooled twoConnections 10 := by
  have hstart : Started startWorker := ⟨fun _ => rfl, fun _ => rfl, rfl⟩
  have hmade : Made startWorker (oneConnection, some 10) :=
    (newThread_made idleLua startWorker ⟨4, some 10, true, some 20⟩).of_ok rfl
  have hsame : SameSched oneConnection twoConnections :=
    (SameSched.foldlM (runAct_same 10) [.getMsock 29, .socketNew 30 (some 21) (some 5)]
      oneConnection).of_ok rfl
  rcases hmade.sched hstart.sched with ⟨hnone, -⟩ | ⟨th, hth, hsched⟩
  · cases hnone
  · cases hth
    exact ⟨_, _, hsched.congr hsame, .head _⟩

/-- Nothing has come yet. -/
def twoReads : ReadThread := ⟨twoConnections, .running, fun _ => noConn, [], []⟩

/-- The worker when a `read` of the connection waits, when that is resumed, and when a
`read` of the socket waits. -/
def askedFirst : MwWorker :=
  (afterResume 8 twoConnections 10 (readYield 20 5 0)).toOption.getD startWorker

def unpooledFirst : MwWorker := (delFromPool 8 askedFirst 10).toOption.getD startWorker

def resumedFirst : MwWorker := (thRemoveResFromEpfd unpooledFirst 10).toOption.getD startWorker

def askedSecond : MwWorker :=
  (afterResume 8 resumedFirst 10 (readYield 21 5 0)).toOption.getD startWorker

theorem settles_of_eight {f : Nat → WRun MwWorker} {w : MwWorker} (h : ∀ j, f (j + 8) = .ok w) :
    Settles f (.ok w) := by
  refine ⟨8, fun k hk => ?_⟩
  obtain ⟨j, rfl⟩ := Nat.exists_eq_add_of_le' hk
  exact h j

theorem askedFirst_settles :
    Settles (fun k => afterResume k twoConnections 10 (readYield 20 5 0)) (.ok askedFirst) :=
  settles_of_eight fun _ => rfl

theorem unpooledFirst_settles :
    Settles (fun k => delFromPool k askedFirst 10) (.ok unpooledFirst) :=
  settles_of_eight fun _ => rfl

theorem askedSecond_settles :
    Settles (fun k => afterResume k resumedFirst 10 (readYield 21 5 0)) (.ok askedSecond) :=
  settles_of_eight fun _ => rfl

/-- A `read` of the connection has got its bytes; a `read` of the socket then returns what
comes on the connection. -/
theorem readThread_mixes_two : ∃ s s' : ReadThread, Reach 10 s ∧ s.pc = .waiting 30 1 5 21
    ∧ Relation.ReflTransGen (Step 10) s s'
    ∧ s'.log = [⟨20, some 20, ⟨1, some [7], none⟩⟩, ⟨21, some 20, ⟨1, some [8], none⟩⟩] := by
  have h0 : Reach 10 twoReads :=
    .start rfl rfl rfl twoConnections_armed twoConnections_unpooled fun _ => rfl
  have hasks : Step 10 twoReads (twoReads.asks 29 1 5 20 askedFirst) :=
    .asks rfl (by decide) (by decide) askedFirst_settles
  have h1 := h0.step hasks
  have h2 := h1.step (.arrives 20 [7] (by decide) (by decide) (by decide))
  have h3 := h2.step (.wakes ⟨epollIn, 20, [], 0⟩ false rfl (by decide) (by decide) (by decide)
    (by decide) unpooledFirst_settles (show _ = Except.ok resumedFirst from rfl))
  have hread : ReadsFrom (resumedRead resumedFirst.sendMem 29 1 5
      (IoResume.ready 20 lasSReadyToInput)) 4 1 := fun _ => rfl
  have h4 := h3.step (.reads (j := 20) (o := .got [7]) rfl (by decide) rfl hread
    (.got (List.append_nil [7]).symm (by decide) (by decide)))
  have hcall : lcfSocketRead resumedFirst.sendMem (readArgs 30 1 5) = .yielded 21 5 := by decide
  have h5 := h4.step (.asks rfl (by decide) hcall askedSecond_settles)
  obtain ⟨s1, s2, s3, e, hs1, hs2, hs3, -, -, -, hlog⟩ :=
    readThread_mixes (j := 20) h5 rfl (by decide) (by decide) (by decide) 8
  refine ⟨_, s3, h5, rfl, ((Relation.ReflTransGen.single hs1).tail hs2).tail hs3, ?_⟩
  rw [hlog]
  decide

end ReadThread

end Artorias
