import Artorias.SocketSend
import Artorias.Worker

/-!
# Reading from a socket (`lm_socket.c`)

`lcf_socket_sread` reads once, and at once. `lcf_socket_read` waits for the socket
first, and `k_socket_read` goes on when the worker resumes it: it reads from the
resource that it is resumed for, and does not look at the socket again.
-/

namespace Artorias

/-! ## `sread` -/

/-- What `read` answers; `got []` is the end. -/
inductive RecvOutcome where
  | got (bytes : List (BitVec 8))
  | failed (errno : Int)
deriving Repr, DecidableEq

/-- `n, buf, err` of a call of `sread` -/
structure Sread where
  n : Int
  buf : Option (List (BitVec 8))
  err : Option Int
deriving Repr, DecidableEq

inductive SreadEnd where
  | returned (r : Sread)
  | raised (err : LuaError)
  | fault
deriving Repr, DecidableEq

def RecvOutcome.sread : RecvOutcome → Sread
  | got bytes => ⟨bytes.length, some bytes, none⟩
  | failed errno => ⟨0, none, some errno⟩

/-- The `int` that a length is stored in, and its default. -/
def sreadLen (n : Int) : Nat :=
  if cInt n ≤ 0 then 1024 else (cInt n).toNat

theorem sreadLen_pos (n : Int) : 0 < sreadLen n := by
  rw [sreadLen]
  split <;> omega

/-- Whatever `read` answers, the call returns what that answers for `n` bytes of the
descriptor `fd`. -/
def ReadsFrom (call : (Int → Nat → RecvOutcome) → SreadEnd) (fd : Int) (n : Nat) : Prop :=
  ∀ read, call read = .returned (read fd n).sread

/-- A call that returns what `read` answers does so for one descriptor and one
length only. -/
theorem ReadsFrom.unique {call : (Int → Nat → RecvOutcome) → SreadEnd} {fd fd' : Int} {n n' : Nat}
    (h : ReadsFrom call fd n) (h' : ReadsFrom call fd' n') : fd = fd' ∧ n = n' := by
  by_contra hne
  have hread := (h fun x y => if x = fd ∧ y = n then .failed 1 else .failed 2).symm.trans (h' _)
  have hne' : ¬(fd' = fd ∧ n' = n) := fun he => hne ⟨he.1.symm, he.2.symm⟩
  rw [if_pos ⟨rfl, rfl⟩, if_neg hne'] at hread
  cases hread

/-- A call that returns what `read` answers cannot return one result whatever that is. -/
theorem ReadsFrom.not_const {call : (Int → Nat → RecvOutcome) → SreadEnd} {fd : Int} {n : Nat}
    (h : ReadsFrom call fd n) (result : Sread) : ¬∀ read, call read = .returned result := by
  intro hconst
  have hread := (hconst fun _ _ => .failed 1).trans (hconst fun _ _ => .failed 2).symm
  rw [h, h] at hread
  cases hread

/-- `lcf_socket_sread`; `read` is what the kernel answers for a descriptor and a
length. -/
def lcfSocketSread (s : SendMem) (L : LuaStack) (read : Int → Nat → RecvOutcome) : SreadEnd :=
  match L.val 1 with
  | .userdata sock =>
      match (L.val 2).toIntegerx with
      | none => .raised (.badArgument 2)
      | some n =>
          match s.socks sock with
          | none => .returned ⟨0, none, some eBadfd⟩
          | some res =>
              match s.ress res with
              | none => .fault
              | some r => .returned (read r.fd (sreadLen n)).sread
  | _ => .raised (.badArgument 1)

/-! ## `read` -/

/-- What `lcf_socket_read` comes to. -/
inductive ReadCall where
  | ended (r : SreadEnd)
  /-- `lua_yieldk`, for a resource and a time -/
  | yielded (res : Addr) (timeout : Int)
deriving Repr, DecidableEq

/-- `lcf_socket_read` -/
def lcfSocketRead (s : SendMem) (L : LuaStack) : ReadCall :=
  match L.val 1 with
  | .userdata sock =>
      match (L.val 3).toIntegerx with
      | none => .ended (.raised (.badArgument 3))
      | some timeout =>
          match s.socks sock with
          | none => .ended (.returned ⟨0, none, some eBadfd⟩)
          | some res =>
              match (s.ress res).bind SendRes.thMode with
              | none => .ended .fault
              | some mode =>
                  if mode ≠ .simple then .ended (.raised (.message "ev error"))
                  else .yielded res (if cInt timeout < 0 then lasDTimoutSecs else cInt timeout)
  | _ => .ended (.raised (.badArgument 1))

/-- `k_socket_read` -/
def kSocketRead (s : SendMem) (status : LuaStatus) (L : LuaStack)
    (read : Int → Nat → RecvOutcome) : SreadEnd :=
  match status with
  | .yield =>
      match (L.val 4).toIntegerx with
      | none => .raised (.badArgument 4)
      | some type =>
          if cInt type = lasSResumeIoTimeout then .returned ⟨0, none, some eTimedout⟩
          else
            match ((L.pop 3).val 2).toIntegerx with
            | none => .raised (.badArgument 2)
            | some n =>
                match (L.top 2).toUserdata.bind s.ress with
                | none => .fault
                | some r => .returned (read r.fd (sreadLen n)).sread
  | .ok | .err => .raised (.message "read error")

/-- Resumed for a resource, the call reads from the descriptor of that resource, whatever
the socket it was called on: the continuation takes the resource from what it is resumed
with. -/
theorem kSocketRead_resumed {s : SendMem} {sock res : Addr} {n timeout io : Int} {r : SendRes}
    (hres : s.ress res = some r) {args : LuaStack}
    (hargs : args = (IoResume.ready res io).args ∨ args = (IoResume.error res io).args) :
    ReadsFrom (kSocketRead s .yield ([.userdata sock, .integer n, .integer timeout] ++ args)) r.fd
      (sreadLen n) := by
  intro read
  rcases hargs with rfl | rfl <;>
    simp [kSocketRead, IoResume.args, LuaStack.val, LuaStack.top, LuaStack.pop, LuaValue.toIntegerx,
      LuaValue.toUserdata, hres, lasSResumeIo, lasSResumeIoError, lasSResumeIoTimeout, cInt]

theorem kSocketRead_timeout (s : SendMem) (sock : Addr) (n timeout : Int)
    (read : Int → Nat → RecvOutcome) :
    kSocketRead s .yield
      ([.userdata sock, .integer n, .integer timeout] ++ IoResume.timeout.args) read
      = .returned ⟨0, none, some eTimedout⟩ := by
  simp [kSocketRead, IoResume.args, LuaStack.val, LuaValue.toIntegerx, lasSResumeIoTimeout, cInt]

/-! ## Resuming -/

/-- What `process_io` has of an event. -/
inductive Wake where
  | error
  | input
  | output
deriving Repr, DecidableEq

/-- `events[i].events` has a flag. -/
def hasFlag (events flag : BitVec 32) : Bool := events &&& flag ≠ 0

def wakeOf (events : BitVec 32) : Wake :=
  if hasFlag events epollErr || hasFlag events epollHup
      || !(hasFlag events epollIn || hasFlag events epollOut) then .error
  else if hasFlag events epollIn then .input
  else .output

theorem dispatch_eq (lua : Lua) (k : Nat) {w : MwWorker} {e : EpollEvent}
    (hcfd : e.ptr ≠ w.cfdRes) :
    dispatch lua k w e = match wakeOf e.events with
      | .error => handleFdError lua k w e.ptr e.errno
      | .input => handleFdRead lua k w e.ptr
      | .output => handleFdWrite lua k w e.ptr := by
  change (if hasFlag e.events epollErr || hasFlag e.events epollHup
    || !(hasFlag e.events epollIn || hasFlag e.events epollOut) then _ else _) = _
  rw [if_neg hcfd, wakeOf]
  cases hasFlag e.events epollErr <;> cases hasFlag e.events epollHup <;>
    cases hin : hasFlag e.events epollIn <;> cases hout : hasFlag e.events epollOut <;>
    simp_all [EpollEvent.has, hasFlag]

/-- How `process_io` resumes the thread of the resource of an event. -/
def resumeOf (e : EpollEvent) : IoResume :=
  match wakeOf e.events with
  | .error => .error e.ptr e.errno
  | .input => .ready e.ptr lasSReadyToInput
  | .output => .ready e.ptr lasSReadyToOutput

theorem dispatch_resumeOf (lua : Lua) (k : Nat) {w : MwWorker} {e : EpollEvent}
    (hcfd : e.ptr ≠ w.cfdRes) :
    dispatch lua k w e = handleFd lua k w e.ptr (resumeOf e).args := by
  rw [dispatch_eq lua k hcfd, resumeOf]
  cases wakeOf e.events with
  | error => exact if_neg hcfd
  | input => rfl
  | output => rfl

/-! ## What the calls see of the worker -/

/-- The sockets and the resources of the worker, as the functions of `lm_socket` look at
them. -/
def MwWorker.sendMem (w : MwWorker) : SendMem where
  socks u := (w.socks u).bind LmSocket.res
  ress a := (w.ress a).map fun r => ⟨r.d, r.th.map fun th => (w.tm.threads th).mode⟩
  ctxs _ := none
  recycled := []
  sent _ := []

theorem MwWorker.sendMem_ress {w : MwWorker} {a : Addr} {r : AsThreadRes} (h : w.ress a = some r) :
    w.sendMem.ress a = some ⟨r.d, r.th.map fun th => (w.tm.threads th).mode⟩ :=
  congrArg (Option.map _) h

end Artorias
