import Artorias.MemPool
import Artorias.WorkerMem

/-!
# The worker's loop (`mw_worker.c`)

What a script does when it is resumed is a parameter (`Lua`): with the number
of the call and the arguments of the resume it says which functions of
`lm_socket` are called, which sockets are collected, and how the resume ends.
So is what the kernel delivers: the events, the connections taken at each, and
the time.
-/

namespace Artorias

/-- `_MAX_EVENTS` -/
def maxEvents : Nat := 100

/-- `fs` of `process`, the sizes of the blocks of `ctx->mem_pool`. -/
def poolSizes : List Nat :=
  [12, 16, 24, 32, 48, 64, 128, 256, 384, 512, 768, 1064, 2048, 4096]

/-- `sizeof_thread_array`, which takes `offsetof(as_thread_res_t, d)` for the
length of the header. -/
def sizeofThreadArray (n : Nat) : Nat := 48 + 8 * n

/-- The pointers that the block of `stop_threads` has room for. -/
def stopSlots : Nat := 132

/-- `process` asks for `sizeof_thread_array(_MAX_EVENTS)` bytes, `memp_alloc` gives a block
of the class that serves such a request, and `ths` begins at its byte 8. -/
theorem stopSlots_block : (mempNew true poolSizes).map (fun p =>
    (p.size (p.classIndex (sizeofThreadArray maxEvents)) - 8) / 8) = some stopSlots := by
  decide +kernel

/-- The address of `ctx->io_pool` -/
def ioPool : Addr := 0
/-- The address of `ctx->sleep_pool` -/
def sleepPool : Addr := 1

def epollIn : BitVec 32 := 0x001
def epollOut : BitVec 32 := 0x004
def epollErr : BitVec 32 := 0x008
def epollHup : BitVec 32 := 0x010
def epollEt : BitVec 32 := 0x80000000

/-! ## Scripts -/

/-- A call of a script into `lm_socket`, or of the collector. -/
inductive LuaAct where
  | getMsock (u : Addr)
  | socketNew (u : Addr) (malloc : Option Addr) (connect : Option Int)
  | close (u : Addr)
  | gc (u : Addr)
  | evBegin (socks : List (Addr × BitVec 32)) (complete : Bool)
  | evEnd

/-- What `alua_resume` returns, and the values yielded. -/
inductive LuaResult where
  | yield (vals : LuaStack) (k : Kont)
  | ok
  | error

/-- One call into Lua: what is collected meanwhile, what the script does, how
it ends, and the time then. -/
structure LuaRun where
  gc : List Addr
  acts : List LuaAct
  result : LuaResult
  now : Int

abbrev Lua := Nat → LuaStack → LuaRun

/-- One act of the script of `th`. -/
def runAct (th : Addr) (w : MwWorker) : LuaAct → WRun MwWorker
  | .getMsock u => lcfSocketGetMsock w th u
  | .socketNew u malloc connect => lcfSocketNew w th u malloc connect
  | .close u => lcfSocketClose w u
  | .gc u => lcfSocketGc w u
  | .evBegin socks complete => lcfSocketEvBegin w th socks complete
  | .evEnd => lcfSocketEvEnd w th

/-! ## Threads -/

/-- A conversion to `int`. -/
def cInt (i : Int) : Int := (BitVec.ofInt 32 i).toInt

def ofTree {α : Type} : CRun α → WRun α
  | .ok a => .ok a
  | .error f => .error (.tree f)

/-- `asthread_th_init` for a block that is there; `lthread` says whether Lua has
made a thread. -/
def asthreadThInit (w : MwWorker) (th : Addr) (lthread : Bool) : MwWorker × BitVec 32 :=
  if lthread then
    let t : AsThread :=
      { w.tm.threads th with status := .ready, mode := .simple, pool := none, resl := [] }
    let w := w.setThread th t
    ({ w with curTid := w.curTid + 1 }, w.curTid + 1)
  else (w, -1)

/-- What the collector does while the worker calls Lua. -/
def luaCollect (lua : Lua) (w : MwWorker) : WRun MwWorker :=
  (lua w.turn []).gc.foldlM lcfSocketGc { w with turn := w.turn + 1 }

/-- `asthread_th_free` -/
def asthreadThFree (lua : Lua) (w : MwWorker) (th : Addr) : WRun MwWorker :=
  match w.number th with
  | none => .error (.recycled th)
  | some n => do
      -- `lbind_unref_tid_lthread`
      let w ← luaCollect lua (w.note (.threadFree n))
      let t ← w.thread th
      t.resl.foldlM freeRes w

/-- `asthread_th_add_to_array`. It does not look at the size of the array, and
writes outside the block from the pointer number `stopSlots` on. -/
def asthreadThAddToArray (k : Nat) (w : MwWorker) (th : Addr) : WRun MwWorker := do
  let (tm, _) ← ofTree (asthreadThDelFromPool k w.tm th)
  if w.stopThreads.length ≥ stopSlots then .error .overflow
  else .ok { w with tm := tm, stopThreads := w.stopThreads ++ [th] }

/-- `asthread_th_to_stop` -/
def asthreadThToStop (k : Nat) (w : MwWorker) (th : Addr) : WRun MwWorker := do
  let t ← w.thread th
  asthreadThAddToArray k (w.setThread th { t with status := .stop, pool := none }) th

/-- `asthread_th_add_to_pool` on the worker -/
def addToPool (k : Nat) (w : MwWorker) (th pool : Addr) : WRun MwWorker := do
  let (tm, _) ← ofTree (asthreadThAddToPool k w.tm th (some pool))
  .ok { w with tm := tm }

/-- `asthread_th_del_from_pool` on the worker -/
def delFromPool (k : Nat) (w : MwWorker) (th : Addr) : WRun MwWorker := do
  let (tm, _) ← ofTree (asthreadThDelFromPool k w.tm th)
  .ok { w with tm := tm }

/-- `asthread_th_to_sleep` -/
def asthreadThToSleep (k : Nat) (w : MwWorker) (th : Addr) (et : Int) (pool : Addr) :
    WRun MwWorker := do
  let t ← w.thread th
  addToPool k (w.setThread th { t with et := et, status := .sleep }) th pool

/-- `asthread_th_to_iowait` -/
def asthreadThToIowait (k : Nat) (w : MwWorker) (th : Addr) (et : Int) (pool : Addr) :
    WRun MwWorker := do
  let t ← w.thread th
  addToPool k (w.setThread th { t with et := et, status := .run }) th pool

/-! ## Resuming -/

/-- A wait of `th` for `a` that leaves nothing else to wake it: `a` is linked
in the thread, and in simple mode no other resource there is in
`AS_RSTATUS_EV`. -/
def ClearWait (w : MwWorker) (th a : Addr) : Prop :=
  a ∈ (w.tm.threads th).resl ∧ ((w.tm.threads th).mode = .simple →
    ∀ b ∈ (w.tm.threads th).resl, b ≠ a → (w.ress b).map AsThreadRes.status ≠ some .ev)

instance (w : MwWorker) (th a : Addr) : Decidable (ClearWait w th a) := by
  unfold ClearWait
  infer_instance

/-- A record of the wait, which the code does not keep. -/
def noteWait (w : MwWorker) (th a : Addr) (k : Kont) : MwWorker :=
  { w with waits := Function.update w.waits th (some (a, k)) }.note
    (.ioWait (decide (ClearWait w th a)))

/-- `th_yield_for_io`; `T` is the stack of the thread. -/
def thYieldForIo (k : Nat) (w : MwWorker) (th : Addr) (T : LuaStack) (now : Int) (kont : Kont) :
    WRun MwWorker := do
  let res := (T.top 3).toUserdata
  let ioType := cInt (T.top 2).toInteger
  let secs := cInt (T.top 1).toInteger
  let secs := if secs < 0 then w.connTimeout else secs
  let w ← asthreadThToIowait k w th (now + secs) ioPool
  let events := if ioType = lasSWaitForInput then epollIn ||| epollEt else epollOut ||| epollEt
  match res with
  | none => .error .script
  | some a =>
      match w.ress a with
      | none => .error .script
      | some _ => asthreadResEvAdd (noteWait w th a kont) a events

/-- `th_yield_for_sleep`, and `th_yield_for_ev`, which is the same -/
def thYieldForSleep (k : Nat) (w : MwWorker) (th : Addr) (T : LuaStack) (now : Int) :
    WRun MwWorker :=
  asthreadThToSleep k w th (now + cInt (T.top 1).toInteger) sleepPool

/-- The yielded values are `n`, and the first of them is `code`. -/
def YieldsFor (T : LuaStack) (n : Nat) (code : Int) : Prop :=
  T.length = n ∧ (T.top n).isInteger ∧ (T.top n).toInteger = code

instance (T : LuaStack) (n : Nat) (code : Int) : Decidable (YieldsFor T n code) := by
  unfold YieldsFor
  infer_instance

/-- `thread_resume` from `alua_resume`'s return on -/
def afterResume (k : Nat) (w : MwWorker) (th : Addr) (run : LuaRun) : WRun MwWorker :=
  match run.result with
  | .yield T kont =>
      if YieldsFor T 4 lasSYieldForIo then thYieldForIo k w th T run.now kont
      else if YieldsFor T 2 lasSYieldForSleep then thYieldForSleep k w th T run.now
      else if YieldsFor T 2 lasSYieldForEv then thYieldForSleep k w th T run.now
      else asthreadThToStop k w th
  | .ok | .error => asthreadThToStop k w th

/-- `thread_resume`, with the arguments that have been pushed -/
def threadResume (lua : Lua) (k : Nat) (w : MwWorker) (th : Addr) (args : LuaStack) :
    WRun MwWorker := do
  let t ← w.thread th
  if t.status = .stop then .ok w
  else do
    let run := lua w.turn args
    let w := { w with turn := w.turn + 1, waits := Function.update w.waits th none }
    let w ← run.acts.foldlM (runAct th) w
    afterResume k w th run

/-! ## Handlers -/

/-- A connection that `new_fd_func` returns, and what comes of it: the answers
of `memp_alloc`, and whether Lua makes a thread. -/
structure Conn where
  fd : Int
  th : Option Addr
  lthread : Bool
  res : Option Addr

/-- The resource of a new thread, in `handle_accept`. -/
def newMfdRes (w : MwWorker) (th res : Addr) (fd : Int) (n : Nat) : WRun MwWorker := do
  -- The other fields are set below, before they are read.
  let w := w.setRes res ⟨false, .idle, none, fd, n⟩
  let w ← asthreadResInit w res
  let w ← asthreadResAddToTh w res th
  let w ← asthreadResEvInit w res
  let t ← w.thread th
  .ok ((w.setThread th { t with mfdRes := some res }).note (.threadInit n))

/-- The turn from `asthread_th_init` on, for a block that `memp_alloc` has given.
The connection has got the number `n`. -/
def newThreadIn (lua : Lua) (w : MwWorker) (c : Conn) (th : Addr) (n : Nat) :
    WRun (MwWorker × Option Addr) := do
  -- `lbind_ref_tid_lthread`, in `asthread_th_init`
  let w ← luaCollect lua w
  let (w, tid) :=
    asthreadThInit { w with number := Function.update w.number th (some n) } th c.lthread
  if tid = -1 then do
    let w ← w.recycleThread th
    .ok (w, none)
  else do
    let res ← w.alloc c.res
    let w ← newMfdRes w th res c.fd n
    .ok (w, some th)

/-- The same where `memp_alloc` has answered NULL, which the loop does not look
at: `asthread_th_init` returns -1 before it touches the thread if Lua has made
none, and `memp_recycle` leaves NULL alone. -/
def newThreadNull (lua : Lua) (w : MwWorker) (c : Conn) : WRun (MwWorker × Option Addr) := do
  let w ← luaCollect lua w
  if c.lthread then .error .null else .ok (w, none)

/-- One turn of `while (1)` in `handle_accept`, up to `thread_resume`; the
thread is the one to resume. -/
def newThread (lua : Lua) (w : MwWorker) (c : Conn) : WRun (MwWorker × Option Addr) := do
  let n := w.next
  let w ← w.openFd c.fd
  match c.th with
  | none => newThreadNull lua w c
  | some _ => do
      let th ← w.alloc c.th
      newThreadIn lua w c th n

/-- One turn of `while (1)` in `handle_accept` -/
def acceptConn (lua : Lua) (k : Nat) (w : MwWorker) (c : Conn) : WRun MwWorker := do
  let (w, th) ← newThread lua w c
  match th with
  | none => .ok w
  | some th => threadResume lua k w th []

/-- `handle_accept` -/
def handleAccept (lua : Lua) (k : Nat) (w : MwWorker) (conns : List Conn) : WRun MwWorker :=
  conns.foldlM (acceptConn lua k) w

/-- `th_remove_res_from_epfd` -/
def thRemoveResFromEpfd (w : MwWorker) (th : Addr) : WRun MwWorker := do
  let t ← w.thread th
  if t.mode = .simple then asthreadRemoveResFromEpfd w th else .ok w

/-- What `handle_fd_read`, `handle_fd_write` and `handle_fd_error` do with the
thread of `res`; they differ in what the script gets. -/
def handleFd (lua : Lua) (k : Nat) (w : MwWorker) (res : Addr) (args : LuaStack) :
    WRun MwWorker := do
  let r ← w.res res
  match r.th with
  | none => .error .null
  | some th => do
      let t ← w.thread th
      if t.status = .stop then .ok w
      else do
        let w ← delFromPool k w th
        let w ← thRemoveResFromEpfd w th
        threadResume lua k w th args

/-- `handle_fd_read` -/
def handleFdRead (lua : Lua) (k : Nat) (w : MwWorker) (res : Addr) : WRun MwWorker :=
  handleFd lua k w res
    [.integer lasSResumeIo, .lightuserdata (some res), .integer lasSReadyToInput]

/-- `handle_fd_write` -/
def handleFdWrite (lua : Lua) (k : Nat) (w : MwWorker) (res : Addr) : WRun MwWorker :=
  handleFd lua k w res
    [.integer lasSResumeIo, .lightuserdata (some res), .integer lasSReadyToOutput]

/-- `handle_fd_error` -/
def handleFdError (lua : Lua) (k : Nat) (w : MwWorker) (res : Addr) (errno : Int) :
    WRun MwWorker :=
  if res = w.cfdRes then .ok (w.close w.cfd)
  else
    handleFd lua k w res
      [.integer lasSResumeIoError, .lightuserdata (some res), .integer errno]

/-- An event of `epoll_wait`, with the connections that are there if it is for
`cfd`, and `errno` at the time. -/
structure EpollEvent where
  events : BitVec 32
  ptr : Addr
  conns : List Conn
  errno : Int

def EpollEvent.has (e : EpollEvent) (flag : BitVec 32) : Bool := e.events &&& flag ≠ 0

/-- The body of the loop in `process_io` -/
def dispatch (lua : Lua) (k : Nat) (w : MwWorker) (e : EpollEvent) : WRun MwWorker :=
  if e.has epollErr || e.has epollHup || !(e.has epollIn || e.has epollOut) then
    handleFdError lua k w e.ptr e.errno
  else if e.ptr = w.cfdRes then handleAccept lua k w e.conns
  else if e.has epollIn then handleFdRead lua k w e.ptr
  else if e.has epollOut then handleFdWrite lua k w e.ptr
  else .ok w

/-- `process_io` -/
def processIo (lua : Lua) (k : Nat) (w : MwWorker) (events : List EpollEvent) : WRun MwWorker :=
  events.foldlM (dispatch lua k) w

/-- `memp_recycle(th->mfd_res)` -/
def recycleMfdRes (w : MwWorker) (th : Addr) : WRun MwWorker := do
  let t ← w.thread th
  match t.mfdRes with
  | none => .ok w
  | some res => w.recycleRes res

/-- What `process_stop_threads` and `r_thread_from_pool` do with a thread. -/
def releaseThread (lua : Lua) (w : MwWorker) (th : Addr) : WRun MwWorker := do
  let w ← asthreadThFree lua w th
  let w ← recycleMfdRes w th
  w.recycleThread th

/-- `process_stop_threads` -/
def processStopThreads (lua : Lua) (w : MwWorker) : WRun MwWorker :=
  w.stopThreads.foldlM (releaseThread lua) w

/-! ## Passes over a tree -/

/-- A visitor of the worker as one of the tree library. The nodes are the ones
the traversal works on; after a fault nothing is visited any more. -/
def visitor (visit : Nat → MwWorker → Addr → WRun MwWorker) (k : Nat) (n : Addr) :
    RbMem Addr × WRun MwWorker → CRun (RbMem Addr × WRun MwWorker)
  | (m, .error f) => .ok (m, .error f)
  | (m, .ok w) =>
      match visit k { w with tm := { w.tm with nodes := m.nodes } } n with
      | .error f => .ok (m, .error f)
      | .ok w => .ok (⟨m.root, w.tm.nodes⟩, .ok w)

/-- `rb_tree_postorder_travel` -/
def travelThreads (visit : Nat → MwWorker → Addr → WRun MwWorker) (k : Nat) (w : MwWorker)
    (root : Option Addr) : WRun MwWorker := do
  let (m, w) ← ofTree (rbTreePostorderTravel (visitor visit k) k (⟨root, w.tm.nodes⟩, .ok w) root)
  let w ← w
  .ok { w with tm := { w.tm with nodes := m.nodes } }

/-- `p_io_timeout_thread` -/
def pIoTimeoutThread (lua : Lua) (k : Nat) (w : MwWorker) (th : Addr) : WRun MwWorker := do
  let t ← w.thread th
  if t.status = .stop then .ok w
  else do
    let w ← thRemoveResFromEpfd w th
    threadResume lua k w th [.integer lasSResumeIoTimeout]

/-- `process_io_timeout` -/
def processIoTimeout (lua : Lua) (k : Nat) (w : MwWorker) (now : Int) : WRun MwWorker := do
  let (tm, timeoutTr) ← ofTree (asthreadRemoveTimeoutThreads k w.tm ioPool now)
  travelThreads (pIoTimeoutThread lua) k { w with tm := tm } timeoutTr

/-- `p_sleep_thread` -/
def pSleepThread (lua : Lua) (k : Nat) (w : MwWorker) (th : Addr) : WRun MwWorker := do
  let t ← w.thread th
  if t.status = .stop then .ok w
  else threadResume lua k w th [.integer lasSResumeSleep]

/-- `process_sleep` -/
def processSleep (lua : Lua) (k : Nat) (w : MwWorker) (now : Int) : WRun MwWorker := do
  let (tm, timeoutTr) ← ofTree (asthreadRemoveTimeoutThreads k w.tm sleepPool now)
  travelThreads (pSleepThread lua) k { w with tm := tm } timeoutTr

/-- `recycle_threads_from_pool` -/
def recycleThreadsFromPool (lua : Lua) (k : Nat) (w : MwWorker) : WRun MwWorker := do
  let w ← travelThreads (fun _ => releaseThread lua) k w (w.tm.pools ioPool)
  travelThreads (fun _ => releaseThread lua) k w (w.tm.pools sleepPool)

/-! ## `process` -/

/-- What one turn of the loop meets: events and the time of both passes. -/
structure Turn where
  events : List EpollEvent
  nowIo : Int
  nowSleep : Int

/-- The body of `while (keep_running)` -/
def turnBody (lua : Lua) (k : Nat) (w : MwWorker) (t : Turn) : WRun MwWorker := do
  let w := { w with stopThreads := [] }
  let w ← processIo lua k w t.events
  let w ← processIoTimeout lua k w t.nowIo
  let w ← processSleep lua k w t.nowSleep
  processStopThreads lua w

/-- `process` from the loop on, with as many turns as there are until
`keep_running` is 0. `lua_close` collects the sockets of `last`. -/
def process (lua : Lua) (k : Nat) (w : MwWorker) (turns : List Turn) (last : List Addr) :
    WRun MwWorker := do
  let w ← turns.foldlM (turnBody lua k) w
  let w ← processStopThreads lua w
  let w ← recycleThreadsFromPool lua k w
  last.foldlM lcfSocketGc w

/-! ## The smallest worker -/

/-- A worker that has just started, with descriptor 3 to accept from. -/
def startWorker : MwWorker where
  tm := ⟨fun _ => ⟨0, none, .ready, .simple, none, []⟩, fun _ => ⟨none, none, none, .red⟩,
    fun _ => none⟩
  number _ := none
  ress _ := none
  socks _ := none
  fds fd := if fd = 3 then some 0 else none
  epoll fd := if fd = 3 then some (epollIn ||| epollEt, 0) else none
  stopThreads := []
  cfd := 3
  cfdRes := 0
  connTimeout := 10
  curTid := 0
  turn := 0
  next := 1
  log := []
  waits _ := none

/-- Scripts that end at once. -/
def idleLua : Lua := fun _ _ => ⟨[], [], .ok, 0⟩

end Artorias
