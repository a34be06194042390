import Artorias.WorkerInterest

/-!
# The master and its workers (`mw_server.c`, `server.c`)

The master accepts the connections and sends their descriptors to the workers in
turn, through a socket pair for each; a worker that is told to accept from its
end receives them until there are no more. Both are told by `epoll` with
`EPOLLET`: once, when something new has come.

A step is one system call, and what the process does up to its next one. What a
worker does with a descriptor, and between two calls, is that of `Worker`.
-/

namespace Artorias

/-! ## Queues under `EPOLLET` -/

/-- What can be taken from a descriptor that is watched with `EPOLLET`, and whether more has
come since `epoll_wait` last said so. -/
structure EdgeQueue (α : Type) where
  queue : List α
  edge : Bool
deriving Repr, DecidableEq

namespace EdgeQueue

variable {α : Type}

def empty : EdgeQueue α := ⟨[], false⟩

def push (q : EdgeQueue α) (a : α) : EdgeQueue α := ⟨q.queue ++ [a], true⟩

/-- `epoll_wait` returns. -/
def wake (q : EdgeQueue α) : EdgeQueue α := { q with edge := false }

def rest (q : EdgeQueue α) : EdgeQueue α := { q with queue := q.queue.tail }

/-- There is nothing to take, or whoever takes it is at it or will hear of it: what
edge-triggered waiting must never break. -/
def Attended (q : EdgeQueue α) (busy : Prop) : Prop := q.queue ≠ [] → q.edge = true ∨ busy

theorem empty_attended (busy : Prop) : (empty : EdgeQueue α).Attended busy := fun h => absurd rfl h

theorem push_attended (q : EdgeQueue α) (a : α) (busy : Prop) : (q.push a).Attended busy :=
  fun _ => .inl rfl

theorem busy_attended (q : EdgeQueue α) {busy : Prop} (h : busy) : q.Attended busy :=
  fun _ => .inr h

theorem drained_attended {q : EdgeQueue α} (h : q.queue = []) (busy : Prop) : q.Attended busy :=
  fun hne => absurd h hne

theorem Attended.imp {q : EdgeQueue α} {busy busy' : Prop} (h : q.Attended busy)
    (himp : busy → busy') : q.Attended busy' := fun hne => (h hne).imp_right himp

theorem Attended.queue_nil {q : EdgeQueue α} {busy : Prop} (h : q.Attended busy)
    (hedge : q.edge = false) (hbusy : ¬busy) : q.queue = [] := by
  by_contra hne
  rcases h hne with he | hb
  · rw [hedge] at he
    cases he
  · exact hbusy hb

end EdgeQueue

/-! ## The master -/

/-- `errno` after a call that has returned -1; `EWOULDBLOCK` is `EAGAIN`. -/
inductive Errno where
  | eagain
  | other
deriving Repr, DecidableEq

/-- Where `master_process` is. -/
inductive MasterAt where
  /-- `epoll_wait` -/
  | epollWait
  /-- `new_accept_fd(socket)` -/
  | accept
  /-- `send_fd_by_socket(child_sockets[j], infd)` -/
  | send (infd : Int)
  /-- `close(infd)` -/
  | close (infd : Int)
deriving Repr, DecidableEq

structure Master where
  pc : MasterAt
  j : Nat
  /-- the connections behind its descriptors -/
  fds : Int → Option Nat
  /-- `socket` is open. -/
  socket : Bool
  errno : Errno

namespace Master

/-- The body of the `for` loop, up to the inner `while`; `socket` is all that is
watched. -/
def onEvent (m : Master) (events : BitVec 32) : Master :=
  if events &&& epollErr ≠ 0 ∨ events &&& epollHup ≠ 0 ∨ events &&& epollIn = 0 then
    { m with socket := false }
  else { m with pc := .accept }

/-- `new_accept_fd` has returned; the inner loop ends on any error. -/
def afterAccept (m : Master) (r : Except Errno Int) : Master :=
  match r with
  | .ok infd => { m with pc := .send infd }
  | .error e => { m with pc := .epollWait, errno := e }

/-- `send_fd_by_socket` has returned; nobody looks at what. -/
def afterSend (n : Nat) (m : Master) (infd : Int) : Master :=
  { m with j := (m.j + 1) % n, pc := .close infd }

def afterClose (m : Master) (infd : Int) : Master :=
  { m with fds := Function.update m.fds infd none, pc := .accept }

@[simp] theorem afterAccept_fds (m : Master) (r : Except Errno Int) :
    (m.afterAccept r).fds = m.fds := by
  cases r <;> rfl

@[simp] theorem afterClose_fds (m : Master) (infd : Int) :
    (m.afterClose infd).fds = Function.update m.fds infd none := rfl

end Master

/-! ## The socket pairs -/

inductive SocketEnd where
  | master (i : Nat)
  | worker (i : Nat)
deriving Repr, DecidableEq

/-- The ends that the master and the children so far have open. -/
structure Forked where
  master : List SocketEnd
  children : List (List SocketEnd)
deriving Repr, DecidableEq

/-- A turn of the loop in `master_workers_server`: `socketpair`, `fork`, and `close` on
either side. A child has what the master has got by then, and so the master's ends of the
earlier pairs as well. -/
def forkWorker (s : Forked) (i : Nat) : Forked :=
  let sockets := s.master ++ [.worker i, .master i]
  { master := sockets.erase (.worker i)
    children := s.children ++ [sockets.erase (.master i)] }

def forkWorkers (n : Nat) : Forked := (List.range n).foldl forkWorker ⟨[], []⟩

/-! ## All of them -/

/-- A worker that is there, and whether it is in the loop of `handle_accept`. -/
structure WorkerProc where
  mw : MwWorker
  accepting : Bool
  errno : Errno

inductive Proc where
  | master
  | worker (i : Nat)
deriving Repr, DecidableEq

/-- The clients are numbered as they come. -/
structure MwServer where
  /-- what `accept` can return -/
  backlog : EdgeQueue Nat
  /-- the clients so far -/
  arrived : Nat
  /-- Nothing once it has been killed, as for a worker. -/
  master : Option Master
  workers : Nat → Option WorkerProc
  /-- the descriptors on their way to each worker -/
  chan : Nat → EdgeQueue Nat
  /-- the ends of socket pairs that a process has open -/
  ends : Proc → List SocketEnd
  /-- the calls of `accept` that have returned a descriptor -/
  taken : Nat
  /-- the calls of `send_fd_by_socket` that have returned -/
  sent : Nat
  /-- those that have returned -1 -/
  failed : List Nat
  /-- what `recv_fd_from_socket` has returned to each worker -/
  got : Nat → List Nat

/-- A step of the worker that is not about `cfd`, and so concerns nobody else. -/
def LoopStep.Inner (w : MwWorker) : LoopStep → Prop
  | .event e => e.ptr ≠ w.cfdRes
  | .reset | .ioTimeout _ | .sleep _ | .stop | .recycle => True

namespace MwServer

def setWorker (s : MwServer) (i : Nat) (p : Option WorkerProc) : MwServer :=
  { s with workers := Function.update s.workers i p }

def setChan (s : MwServer) (i : Nat) (q : EdgeQueue Nat) : MwServer :=
  { s with chan := Function.update s.chan i q }

def setEnds (s : MwServer) (p : Proc) (es : List SocketEnd) : MwServer :=
  { s with ends := Function.update s.ends p es }

@[simp] theorem setWorker_workers (s : MwServer) (i : Nat) (p : Option WorkerProc) :
    (s.setWorker i p).workers = Function.update s.workers i p := rfl

@[simp] theorem setWorker_master (s : MwServer) (i : Nat) (p : Option WorkerProc) :
    (s.setWorker i p).master = s.master := rfl

@[simp] theorem setWorker_ends (s : MwServer) (i : Nat) (p : Option WorkerProc) :
    (s.setWorker i p).ends = s.ends := rfl

@[simp] theorem setWorker_chan (s : MwServer) (i : Nat) (p : Option WorkerProc) :
    (s.setWorker i p).chan = s.chan := rfl

@[simp] theorem setEnds_ends (s : MwServer) (p : Proc) (es : List SocketEnd) :
    (s.setEnds p es).ends = Function.update s.ends p es := rfl

@[simp] theorem setEnds_master (s : MwServer) (p : Proc) (es : List SocketEnd) :
    (s.setEnds p es).master = s.master := rfl

@[simp] theorem setEnds_workers (s : MwServer) (p : Proc) (es : List SocketEnd) :
    (s.setEnds p es).workers = s.workers := rfl

@[simp] theorem setChan_chan (s : MwServer) (i : Nat) (q : EdgeQueue Nat) :
    (s.setChan i q).chan = Function.update s.chan i q := rfl

@[simp] theorem setChan_workers (s : MwServer) (i : Nat) (q : EdgeQueue Nat) :
    (s.setChan i q).workers = s.workers := rfl

@[simp] theorem setChan_ends (s : MwServer) (i : Nat) (q : EdgeQueue Nat) :
    (s.setChan i q).ends = s.ends := rfl

@[simp] theorem setChan_got (s : MwServer) (i : Nat) (q : EdgeQueue Nat) :
    (s.setChan i q).got = s.got := rfl

@[simp] theorem setWorker_got (s : MwServer) (i : Nat) (p : Option WorkerProc) :
    (s.setWorker i p).got = s.got := rfl

/-- Worker `i` has its end open. -/
def Listens (s : MwServer) (i : Nat) : Prop := .worker i ∈ s.ends (.worker i)

instance (s : MwServer) (i : Nat) : Decidable (s.Listens i) := inferInstanceAs (Decidable (_ ∈ _))

@[simp] theorem setWorker_listens (s : MwServer) (i : Nat) (p : Option WorkerProc) (j : Nat) :
    (s.setWorker i p).Listens j ↔ s.Listens j := Iff.rfl

@[simp] theorem setChan_listens (s : MwServer) (i : Nat) (q : EdgeQueue Nat) (j : Nat) :
    (s.setChan i q).Listens j ↔ s.Listens j := Iff.rfl

/-- Some process has the listening socket open: the workers never close what they have
of it from `fork`. -/
def Serves (s : MwServer) : Prop :=
  (∃ m, s.master = some m ∧ m.socket = true) ∨ ∃ i p, s.workers i = some p

/-- Worker `i` is left with the ends `es`, and its own is not one of them. It is the only
process that has had it, so what has not been received from there is gone. -/
def closeEnd (s : MwServer) (i : Nat) (es : List SocketEnd) : MwServer :=
  (s.setEnds (.worker i) es).setChan i .empty

@[simp] theorem closeEnd_ends (s : MwServer) (i : Nat) (es : List SocketEnd) :
    (s.closeEnd i es).ends = Function.update s.ends (.worker i) es := rfl

@[simp] theorem closeEnd_chan (s : MwServer) (i : Nat) (es : List SocketEnd) :
    (s.closeEnd i es).chan = Function.update s.chan i .empty := rfl

@[simp] theorem closeEnd_workers (s : MwServer) (i : Nat) (es : List SocketEnd) :
    (s.closeEnd i es).workers = s.workers := rfl

@[simp] theorem closeEnd_master (s : MwServer) (i : Nat) (es : List SocketEnd) :
    (s.closeEnd i es).master = s.master := rfl

/-- Nobody has the other end. -/
def HangsUp (s : MwServer) (i : Nat) : Prop := ∀ p, .master i ∉ s.ends p

/-- The state after `recv_fd_from_socket` and a turn of `handle_accept`. -/
def received (s : MwServer) (i : Nat) (p : WorkerProc) (w : MwWorker) (c : Nat) : MwServer :=
  { (s.setWorker i (some { p with mw := w })).setChan i (s.chan i).rest with
    got := Function.update s.got i (s.got i ++ [c]) }

/-- A step of one process, or of a client. `room` is the number of descriptors that a socket
holds. A process may end at any time, by itself or by a signal; its ends are closed then. -/
inductive Step (lua : Lua) (n room : Nat) : MwServer → MwServer → Prop where
  | connect {s : MwServer} : s.Serves →
      Step lua n room s { s with backlog := s.backlog.push s.arrived, arrived := s.arrived + 1 }
  /-- The last process that had the listening socket has ended. -/
  | unserved {s : MwServer} : ¬s.Serves → Step lua n room s { s with backlog := .empty }
  | masterWakes {s : MwServer} {m : Master} (events : BitVec 32) : s.master = some m →
      m.pc = .epollWait → (events &&& epollIn ≠ 0 → s.backlog.edge = true) →
        Step lua n room s { s with master := some (m.onEvent events), backlog := s.backlog.wake }
  | accept {s : MwServer} {m : Master} {infd : Int} {c : Nat} : s.master = some m →
      m.pc = .accept → m.socket = true → s.backlog.queue.head? = some c → m.fds infd = none →
        Step lua n room s { s with
          master := some
            ({ m with fds := Function.update m.fds infd (some c) }.afterAccept (.ok infd))
          backlog := s.backlog.rest
          taken := s.taken + 1 }
  | acceptFails {s : MwServer} {m : Master} (e : Errno) : s.master = some m → m.pc = .accept →
      (e = .eagain → s.backlog.queue = []) →
        Step lua n room s { s with master := some (m.afterAccept (.error e)) }
  | send {s : MwServer} {m : Master} {infd : Int} {c : Nat} : s.master = some m →
      m.pc = .send infd → m.fds infd = some c → s.Listens m.j →
      (s.chan m.j).queue.length < room →
        Step lua n room s { s.setChan m.j ((s.chan m.j).push c) with
          master := some (m.afterSend n infd)
          sent := s.sent + 1 }
  | sendFails {s : MwServer} {m : Master} {infd : Int} {c : Nat} : s.master = some m →
      m.pc = .send infd → m.fds infd = some c →
        Step lua n room s { s with
          master := some (m.afterSend n infd)
          sent := s.sent + 1
          failed := s.failed ++ [c] }
  /-- `SIGPIPE`, which nobody handles: the worker has closed its end. -/
  | sigpipe {s : MwServer} {m : Master} {infd : Int} : s.master = some m → m.pc = .send infd →
      ¬s.Listens m.j → Step lua n room s { s.setEnds .master [] with master := none }
  | close {s : MwServer} {m : Master} {infd : Int} : s.master = some m → m.pc = .close infd →
      Step lua n room s { s with master := some (m.afterClose infd) }
  | masterEnds {s : MwServer} {m : Master} : s.master = some m →
      Step lua n room s { s.setEnds .master [] with master := none }
  | workerWakes {s : MwServer} {i : Nat} {p : WorkerProc} : s.workers i = some p →
      p.accepting = false → s.Listens i → (s.chan i).edge = true → ¬s.HangsUp i →
        Step lua n room s
          ((s.setWorker i (some { p with accepting := true })).setChan i (s.chan i).wake)
  | recv {s : MwServer} {i : Nat} {p : WorkerProc} {w : MwWorker} {c : Nat} (k : Nat)
      (conn : Conn) :
      s.workers i = some p → p.accepting = true → s.Listens i →
      (s.chan i).queue.head? = some c → acceptConn lua k p.mw conn = .ok w →
        Step lua n room s (s.received i p w c)
  | recvFails {s : MwServer} {i : Nat} {p : WorkerProc} (e : Errno) : s.workers i = some p →
      p.accepting = true → (e = .eagain → (s.chan i).queue = [] ∧ ¬s.HangsUp i) →
        Step lua n room s (s.setWorker i (some { p with accepting := false, errno := e }))
  | loop {s : MwServer} {i : Nat} {p : WorkerProc} {w : MwWorker} (k : Nat) (t : LoopStep) :
      s.workers i = some p → p.accepting = false → LoopStep.Inner p.mw t →
      runLoopStep lua k p.mw t = .ok w → Step lua n room s (s.setWorker i (some { p with mw := w }))
  /-- `handle_fd_error` closes `cfd`: there is `EPOLLHUP` beside any `EPOLLIN`. -/
  | hangUp {s : MwServer} {i : Nat} {p : WorkerProc} {w : MwWorker} (k : Nat) (e : EpollEvent) :
      s.workers i = some p → p.accepting = false → s.Listens i → s.HangsUp i →
      e.ptr = p.mw.cfdRes → AcceptOk p.mw e → e.has epollHup = true →
        dispatch lua k p.mw e = .ok w →
        Step lua n room s ((s.setWorker i (some { p with mw := w })).closeEnd i
          ((s.ends (.worker i)).filter (· ≠ .worker i)))
  | workerEnds {s : MwServer} {i : Nat} {p : WorkerProc} : s.workers i = some p →
      Step lua n room s ((s.setWorker i none).closeEnd i [])

/-- The processes have been forked, and the master is about to wait. -/
structure Started (n : Nat) (s : MwServer) : Prop where
  pos : 0 < n
  backlog : s.backlog = .empty
  arrived : s.arrived = 0
  master : ∃ m, s.master = some m ∧ m.pc = .epollWait ∧ m.j = 0 ∧ (∀ fd, m.fds fd = none)
  workers : ∀ i < n, ∃ p, s.workers i = some p ∧ p.accepting = false ∧ Begun p.mw
    ∧ (∀ fd, p.mw.fds fd = none → p.mw.epoll fd = none)
  others : ∀ i, n ≤ i → s.workers i = none
  chan : ∀ i, s.chan i = .empty
  masterEnds : s.ends .master = (forkWorkers n).master
  workerEnds : ∀ i, s.ends (.worker i) = (forkWorkers n).children[i]?.getD []
  taken : s.taken = 0
  sent : s.sent = 0
  failed : s.failed = []
  got : ∀ i, s.got i = []

inductive Reach (lua : Lua) (n room : Nat) : MwServer → Prop where
  | start {s : MwServer} : Started n s → Reach lua n room s
  | step {s s' : MwServer} : Reach lua n room s → Step lua n room s s' → Reach lua n room s'

/-- `n` workers, and nobody has come. -/
def startServer (n : Nat) : MwServer where
  backlog := .empty
  arrived := 0
  master := some ⟨.epollWait, 0, fun _ => none, true, .eagain⟩
  workers i := if i < n then some ⟨startWorker, false, .eagain⟩ else none
  chan _ := .empty
  ends p :=
    match p with
    | .master => (forkWorkers n).master
    | .worker i => (forkWorkers n).children[i]?.getD []
  taken := 0
  sent := 0
  failed := []
  got _ := []

theorem startServer_started {n : Nat} (hn : 0 < n) : Started n (startServer n) where
  pos := hn
  backlog := rfl
  arrived := rfl
  master := ⟨_, rfl, rfl, rfl, fun _ => rfl⟩
  workers i hi := by
    refine ⟨⟨startWorker, false, .eagain⟩, if_pos hi, rfl, startWorker_begun, fun fd hfd => ?_⟩
    by_cases h : fd = 3
    · subst h
      cases hfd
    · exact if_neg h
  others i hi := if_neg (Nat.not_lt.mpr hi)
  chan _ := rfl
  masterEnds := rfl
  workerEnds _ := rfl
  taken := rfl
  sent := rfl
  failed := rfl
  got _ := rfl

end MwServer

end Artorias
