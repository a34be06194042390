import Mathlib.Data.BitVec
import Artorias.Thread
import Artorias.LuaStack

/-!
# The worker's memory, and who holds a resource (`thread.c`, `lm_socket.c`)

A worker has threads, resources (`as_thread_res_t`, a descriptor each) and the
socket objects of Lua, which point to resources. Blocks for threads and
resources come from the pool and go back to it; a block that is used while it
is not out of the pool is a fault here. The kernel knows which descriptors are
open and what `epoll` watches.

Connections and sockets are numbered as they are made. The numbers are not in
the code: they say of two uses of one block, or of one descriptor, whether they
are the same, and `log` says what has been done with which.
-/

namespace Artorias

inductive WFault where
  | null
  /-- A block that is not out of the pool was used or recycled. -/
  | recycled (a : Addr)
  /-- The script waits for what is not a resource in use. -/
  | script
  /-- Past the end of the block of `stop_threads`. -/
  | overflow
  /-- The environment has answered what it cannot: a block or a descriptor that
  is in use, a userdata that is not there. -/
  | env
  | tree (f : Fault)
deriving Repr, DecidableEq

abbrev WRun (α : Type) := Except WFault α

/-- `AS_RSTATUS_*` -/
inductive ResStatus where
  | idle
  | ev
deriving Repr, DecidableEq

/-- `as_thread_res_t`; `freef` is `res_free_f` or NULL, and `node` is in the
list of its thread. -/
structure AsThreadRes where
  freef : Bool
  status : ResStatus
  th : Option Addr
  d : Int
  number : Nat
deriving Repr, DecidableEq

/-- `LM_SOCK_TYPE_*` -/
inductive SockType where
  | system
  | custom
deriving Repr, DecidableEq

/-- `as_lm_socket_t` -/
structure LmSocket where
  res : Option Addr
  type : SockType
  number : Nat
deriving Repr, DecidableEq

inductive WorkerEvent where
  | threadInit (n : Nat)
  | threadFree (n : Nat)
  | threadRecycle (n : Nat)
  | socketNew (n : Nat)
  | resRecycle (n : Nat)
  | fdClose (n : Nat)
  /-- A yield for IO, and whether nothing else can wake the thread. -/
  | ioWait (clear : Bool)
deriving Repr, DecidableEq

/-- Which function goes on when a thread is resumed after a yield for IO: the
script's own, or a continuation of `lm_socket.c`. -/
inductive Kont where
  | script
  | socketRead
  | socketSend
deriving Repr, DecidableEq

/-- `as_mw_worker_ctx_t` and what it leads to. -/
structure MwWorker where
  tm : ThreadMem
  /-- the thread blocks in use, and their numbers -/
  number : Addr → Option Nat
  /-- the resource blocks in use -/
  ress : Addr → Option AsThreadRes
  socks : Addr → Option LmSocket
  /-- whose each open descriptor is -/
  fds : Int → Option Nat
  /-- `events` and `data.ptr` of each descriptor that `epoll` watches -/
  epoll : Int → Option (BitVec 32 × Addr)
  /-- `stop_threads` -/
  stopThreads : List Addr
  cfd : Int
  cfdRes : Addr
  connTimeout : Int
  /-- `cur_tid` -/
  curTid : BitVec 32
  /-- the calls into Lua so far -/
  turn : Nat
  /-- the next number -/
  next : Nat
  log : List WorkerEvent
  /-- what each thread has last yielded for -/
  waits : Addr → Option (Addr × Kont)

namespace MwWorker

def setThread (w : MwWorker) (th : Addr) (t : AsThread) : MwWorker :=
  { w with tm := w.tm.setThread th t }

def setRes (w : MwWorker) (a : Addr) (r : AsThreadRes) : MwWorker :=
  { w with ress := Function.update w.ress a (some r) }

def setSock (w : MwWorker) (u : Addr) (s : Option LmSocket) : MwWorker :=
  { w with socks := Function.update w.socks u s }

def note (w : MwWorker) (e : WorkerEvent) : MwWorker := { w with log := w.log ++ [e] }

/-- Read a resource. -/
def res (w : MwWorker) (a : Addr) : WRun AsThreadRes :=
  match w.ress a with
  | some r => .ok r
  | none => .error (.recycled a)

/-- Read a thread. -/
def thread (w : MwWorker) (th : Addr) : WRun AsThread :=
  match w.number th with
  | some _ => .ok (w.tm.threads th)
  | none => .error (.recycled th)

/-! ## Blocks -/

def InUse (w : MwWorker) (a : Addr) : Prop :=
  (w.number a).isSome ∨ (w.ress a).isSome ∨ a = w.cfdRes

instance (w : MwWorker) (a : Addr) : Decidable (w.InUse a) := by
  unfold InUse
  infer_instance

/-- `memp_alloc` for a caller that does not look for NULL. -/
def alloc (w : MwWorker) (malloc : Option Addr) : WRun Addr :=
  match malloc with
  | none => .error .null
  | some a => if w.InUse a then .error .env else .ok a

/-- `memp_recycle(th)` -/
def recycleThread (w : MwWorker) (th : Addr) : WRun MwWorker :=
  match w.number th with
  | none => .error (.recycled th)
  | some n => .ok ({ w with number := Function.update w.number th none }.note (.threadRecycle n))

/-- `memp_recycle(res)` -/
def recycleRes (w : MwWorker) (a : Addr) : WRun MwWorker :=
  match w.ress a with
  | none => .error (.recycled a)
  | some r => .ok ({ w with ress := Function.update w.ress a none }.note (.resRecycle r.number))

/-! ## The kernel -/

/-- A new descriptor, with the next number. -/
def openFd (w : MwWorker) (fd : Int) : WRun MwWorker :=
  if (w.fds fd).isSome then .error .env
  else .ok { w with fds := Function.update w.fds fd (some w.next), next := w.next + 1 }

/-- `close` -/
def close (w : MwWorker) (fd : Int) : MwWorker :=
  match w.fds fd with
  | none => w
  | some n =>
      { w with
        fds := Function.update w.fds fd none
        epoll := Function.update w.epoll fd none }.note (.fdClose n)

def watch (w : MwWorker) (fd : Int) (events : BitVec 32) (ptr : Addr) : MwWorker :=
  { w with epoll := Function.update w.epoll fd (some (events, ptr)) }

/-- `epoll_ctl(epfd, EPOLL_CTL_ADD, fd, ..)` returns 0. -/
def CanAdd (w : MwWorker) (fd : Int) : Prop := (w.fds fd).isSome ∧ w.epoll fd = none

/-- `epoll_ctl(epfd, EPOLL_CTL_MOD, fd, ..)` returns 0. -/
def CanMod (w : MwWorker) (fd : Int) : Prop := (w.epoll fd).isSome

instance (w : MwWorker) (fd : Int) : Decidable (w.CanAdd fd) := by
  unfold CanAdd
  infer_instance

instance (w : MwWorker) (fd : Int) : Decidable (w.CanMod fd) := by
  unfold CanMod
  infer_instance

end MwWorker

/-! ## Resources of a thread -/

/-- `asthread_res_init` -/
def asthreadResInit (w : MwWorker) (res : Addr) : WRun MwWorker := do
  let r ← w.res res
  .ok (w.setRes res { r with status := .idle, freef := true })

/-- `asthread_res_add_to_th` -/
def asthreadResAddToTh (w : MwWorker) (res th : Addr) : WRun MwWorker := do
  let r ← w.res res
  let t ← w.thread th
  .ok ((w.setRes res { r with th := some th }).setThread th { t with resl := res :: t.resl })

/-- `asthread_res_del_from_th` -/
def asthreadResDelFromTh (w : MwWorker) (res th : Addr) : WRun MwWorker := do
  let t ← w.thread th
  .ok (w.setThread th { t with resl := t.resl.erase res })

/-- `asthread_res_ev_init` -/
def asthreadResEvInit (w : MwWorker) (res : Addr) : WRun MwWorker := do
  let r ← w.res res
  if w.CanAdd r.d then .ok ((w.watch r.d 0 res).setRes res { r with status := .idle })
  else .ok w

/-- `asthread_res_ev_add` -/
def asthreadResEvAdd (w : MwWorker) (res : Addr) (events : BitVec 32) : WRun MwWorker := do
  let r ← w.res res
  if w.CanMod r.d then .ok ((w.watch r.d events res).setRes res { r with status := .ev })
  else .ok w

/-- `asthread_res_ev_del` -/
def asthreadResEvDel (w : MwWorker) (res : Addr) : WRun MwWorker := do
  let r ← w.res res
  if r.status = .ev then .ok w
  else if w.CanMod r.d then .ok ((w.watch r.d 0 res).setRes res { r with status := .idle })
  else .ok w

/-- `asthread_remove_res_from_epfd` -/
def asthreadRemoveResFromEpfd (w : MwWorker) (th : Addr) : WRun MwWorker := do
  let t ← w.thread th
  t.resl.foldlM asthreadResEvDel w

/-- `res->freef(res, f_ptr)`, which is `res_free_f` -/
def resFreeF (w : MwWorker) (r : AsThreadRes) : MwWorker := w.close r.d

/-- `while (dln != NULL)` of `asthread_th_free`, for one resource. -/
def freeRes (w : MwWorker) (res : Addr) : WRun MwWorker := do
  let r ← w.res res
  let w := w.setRes res { r with th := none }
  if r.freef then .ok ((resFreeF w r).setRes res { r with th := none, freef := false })
  else .ok w

/-! ## Sockets of Lua -/

/-- `lcf_socket_get_msock`, the userdata being `u` -/
def lcfSocketGetMsock (w : MwWorker) (th u : Addr) : WRun MwWorker :=
  if (w.socks u).isSome then .error .env
  else do
    let t ← w.thread th
    .ok (w.setSock u (some ⟨t.mfdRes, .system, 0⟩))

/-- `lcf_socket_new`, the userdata being `u`; `malloc` is what `memp_alloc`
answers and `connect` what `make_client_socket` does. -/
def lcfSocketNew (w : MwWorker) (th u : Addr) (malloc : Option Addr) (connect : Option Int) :
    WRun MwWorker :=
  if (w.socks u).isSome then .error .env
  else
    let n := w.next
    match malloc with
    | none => .ok { w.setSock u (some ⟨none, .custom, n⟩) with next := n + 1 }
    | some res =>
        if w.InUse res then .error .env
        else
          let w := w.setSock u (some ⟨some res, .custom, n⟩)
          match connect with
          | none => .ok ({ w with next := n + 1 }.note (.resRecycle n))
          | some fd => do
              let w ← w.openFd fd
              -- The other fields are set below, before they are read.
              let w := w.setRes res ⟨false, .idle, none, fd, n⟩
              let w ← asthreadResInit w res
              let w ← asthreadResAddToTh w res th
              let w ← asthreadResEvInit w res
              .ok (w.note (.socketNew n))

/-- `if (sock->res->th != NULL)` of `lcf_socket_close` -/
def unlinkRes (w : MwWorker) (res : Addr) : WRun MwWorker := do
  let r ← w.res res
  match r.th with
  | none => .ok w
  | some th => asthreadResDelFromTh w res th

/-- `if (sock->res->freef != NULL)` of `lcf_socket_close` -/
def closeRes (w : MwWorker) (res : Addr) : WRun MwWorker := do
  let r ← w.res res
  if r.freef then .ok (resFreeF w r) else .ok w

/-- `lcf_socket_close` -/
def lcfSocketClose (w : MwWorker) (u : Addr) : WRun MwWorker :=
  match w.socks u with
  | none => .error .env
  | some sock =>
      match sock.res with
      | none => .ok w
      | some res =>
          if sock.type = .system then .ok w
          else do
            let w ← unlinkRes w res
            let w ← closeRes w res
            let w ← w.recycleRes res
            .ok (w.setSock u (some { sock with res := none }))

/-- `__gc`, after which the userdata is gone -/
def lcfSocketGc (w : MwWorker) (u : Addr) : WRun MwWorker := do
  let w ← lcfSocketClose w u
  .ok (w.setSock u none)

/-- `for (i = 1; i < n + 1; ++i)` of `lcf_socket_ev_begin` -/
def evBeginLoop (th : Addr) : List (Addr × BitVec 32) → MwWorker → WRun MwWorker
  | [], w => .ok w
  | (u, ev) :: socks, w =>
      match w.socks u with
      | none => .error .env
      | some sock =>
          match sock.res with
          | none => .ok w
          | some res =>
              match w.ress res with
              | none => .error .script
              | some r =>
                  if r.th ≠ some th then .ok w
                  else do
                    let w ← asthreadResEvAdd (w.setRes res { r with status := .ev }) res ev
                    evBeginLoop th socks w

/-- `lcf_socket_ev_begin`; it stops with a Lua error at an argument that is no
socket or no integer, and then `complete` is false. -/
def lcfSocketEvBegin (w : MwWorker) (th : Addr) (socks : List (Addr × BitVec 32))
    (complete : Bool) : WRun MwWorker := do
  let w ← evBeginLoop th socks w
  if complete then do
    let t ← w.thread th
    .ok (w.setThread th { t with mode := .loopSocks })
  else .ok w

/-- `lcf_socket_ev_end` -/
def lcfSocketEvEnd (w : MwWorker) (th : Addr) : WRun MwWorker := do
  let t ← w.thread th
  if t.mode ≠ .loopSocks then .ok w
  else asthreadRemoveResFromEpfd (w.setThread th { t with mode := .simple }) th

end Artorias
