import Artorias.ThreadVarRuns
import Artorias.Worker

/-!
# Waiting for several sockets (`lm_socket.c`)

A script gives `ev_begin` the sockets it wants to hear of. That arms their
resources, which is what the worker sees (`lcfSocketEvBegin`), and keeps a table
from resources to sockets in a variable of the thread; `ev_wait` looks the
resource of an event up there. Here both are followed on the stack of Lua, with
the worker's memory beside it.
-/

namespace Artorias

open LuaState

/-! ## Values and errors -/

/-- `lua_tointegerx`; `num` is for strings and floats. -/
def LuaObj.toIntegerx {φ : Type} (num : LuaObj φ → Option Int) : LuaObj φ → Option Int
  | .integer i => some i
  | .string s => num (.string s)
  | .other x => num (.other x)
  | .nil | .lightuserdata _ | .userdata _ | .table _ | .thread _ | .cfunction _ => none

namespace SocketEv

def lrkWorkerCtx : String := "as_lrk_000"
def llkResSockTable : String := "as_llk_000"
def llkThread : String := "as_llk_001"

/-- Where the names of the two variables are. -/
structure LlkNames (cstr : Addr → String) where
  resSockTable : Addr
  thread : Addr
  resSockTable_eq : cstr resSockTable = llkResSockTable
  thread_eq : cstr thread = llkThread

/-- What a function of `lm_socket.c` is called on. -/
structure LuaWorker where
  lua : LbindState
  mw : MwWorker

inductive CallStop where
  | fault (f : WFault)
  /-- An error of Lua, with what has been done so far. -/
  | raised (s : LuaWorker)

/-- `F` holds of the fault, or `R` of what an error leaves. -/
def CallStop.Within (F : WFault → Prop) (R : LuaWorker → Prop) : CallStop → Prop
  | .fault f => F f
  | .raised s => R s

abbrev CallRun (α : Type) := Except CallStop α

@[simp] theorem callBind_ok {α β : Type} (a : α) (f : α → CallRun β) :
    ((Except.ok a : CallRun α) >>= f) = f a := rfl

/-- A call of the API. -/
def ofApi (w : MwWorker) : ApiRun LbindFn LbindState → CallRun LuaWorker
  | .ok L => .ok ⟨L, w⟩
  | .error (_, L) => .error (.raised ⟨L, w⟩)

/-- Something that is done to the worker only. -/
def ofWorker {α : Type} : WRun α → CallRun α
  | .ok a => .ok a
  | .error f => .error (.fault f)

namespace LuaWorker

def push (s : LuaWorker) (v : LuaObj LbindFn) : LuaWorker := { s with lua := s.lua.push v }

/-- `luaL_argerror` -/
def argerror {α : Type} (s : LuaWorker) : CallRun α :=
  .error (.raised (s.push (.string "bad argument")))

/-- `luaL_checkinteger` -/
def checkinteger (num : LuaObj LbindFn → Option Int) (s : LuaWorker) (i : Int) : CallRun Int :=
  match (s.lua.index i).toIntegerx num with
  | some n => .ok n
  | none => s.argerror

/-- `luaL_checkudata(L, i, LM_SOCKET)` -/
def checkudata (s : LuaWorker) (i : Int) : CallRun (Addr × LmSocket) :=
  match s.lua.index i with
  | .userdata u =>
      match s.mw.socks u with
      | some sock => .ok (u, sock)
      | none => s.argerror
  | _ => s.argerror

end LuaWorker

/-- `lbind_checkregvalue` with `LUA_TLIGHTUSERDATA` -/
def lbindCheckregvalue (L : LbindState) (field emsg : String) : ApiRun LbindFn LbindState := do
  let L ← (L.push (.string field)).gettable luaRegistryindex
  match L.index (-1) with
  | .lightuserdata _ => .ok L
  | _ => (L.push (.string emsg)).error

/-! ## The functions -/

section
variable {cstr : Addr → String} (num : LuaObj LbindFn → Option Int) (names : LlkNames cstr)

/-- A turn of the loop in `lcf_socket_ev_begin`, its arguments being there;
nothing after a `break`. -/
def evBeginSock (th : Option Addr) (i : Nat) (s : LuaWorker) (sock : LmSocket) (ev : Int) :
    CallRun (Option LuaWorker) :=
  match sock.res with
  | none => .ok none
  | some res =>
      match s.mw.ress res with
      | none => .error (.fault .script)
      | some r =>
          if r.th ≠ th then .ok none
          else do
            let L := (s.lua.push (.lightuserdata (some res))).pushvalue (i * 2)
            let s ← ofApi s.mw (L.settable (-3))
            let w := s.mw.setRes res { r with status := .ev }
            let w ← ofWorker (asthreadResEvAdd w res (BitVec.ofInt 32 ev))
            .ok (some ⟨s.lua, w⟩)

def evBeginTurn (th : Option Addr) (i : Nat) (s : LuaWorker) : CallRun (Option LuaWorker) := do
  let (_, sock) ← s.checkudata (i * 2)
  let ev ← s.checkinteger num (i * 2 + 1)
  evBeginSock th i s sock ev

/-- `for (int i = 1; i < n + 1; ++i)` of `lcf_socket_ev_begin`, with `k` turns to
go. -/
def evBeginTurns (th : Option Addr) : Nat → Nat → Nat → LuaWorker → CallRun (LuaWorker × Nat)
  | 0, _, m, s => .ok (s, m)
  | k + 1, i, m, s => do
      match ← evBeginTurn num th i s with
      | none => .ok (s, m)
      | some s => evBeginTurns th k (i + 1) (m + 1) s

/-- `th->mode = AS_TMODE_LOOP_SOCKS` -/
def toLoopSocks (w : MwWorker) : Option Addr → WRun MwWorker
  | none => .error .null
  | some th => do
      let t ← w.thread th
      .ok (w.setThread th { t with mode := .loopSocks })

/-- `lcf_socket_ev_begin` -/
def lcfSocketEvBegin (s : LuaWorker) : CallRun (LuaWorker × Nat) := do
  let s ← ofApi s.mw (lbindCheckregvalue s.lua lrkWorkerCtx "no worker ctx")
  let L := (lbindGetThreadLocalVars cstr s.lua [names.thread]).1
  let th := (L.index (-1)).toUserdata
  let L := L.newtable
  let L := (lbindSetThreadLocalVars cstr L [(names.resSockTable, .stack (-1))]).1
  let s : LuaWorker := ⟨L, s.mw⟩
  let n ← s.checkinteger num 1
  let (s, m) ← evBeginTurns num th (cInt n).toNat 1 0 s
  let w ← ofWorker (toLoopSocks s.mw th)
  .ok (⟨s.lua.push (.integer m), w⟩, 1)

/-- `lcf_socket_ev_end` -/
def lcfSocketEvEnd (s : LuaWorker) : CallRun (LuaWorker × Nat) := do
  let L := (lbindGetThreadLocalVars cstr s.lua [names.thread]).1
  match (L.index (-1)).toUserdata with
  | none => .ok (⟨L, s.mw⟩, 0)
  | some th => do
      let t ← ofWorker (s.mw.thread th)
      if t.mode ≠ .loopSocks then .ok (⟨L, s.mw⟩, 0)
      else do
        let s ← ofApi s.mw (lbindCheckregvalue L lrkWorkerCtx "no worker ctx")
        let w := s.mw.setThread th { t with mode := .simple }
        let w ← ofWorker (asthreadRemoveResFromEpfd w th)
        .ok (⟨s.lua, w⟩, 0)

/-- `lcf_socket_ev_wait` up to the yield: the values yielded, with the stack that
is left below them. -/
def lcfSocketEvWait (s : LuaWorker) : CallRun (List (LuaObj LbindFn) × LbindState) := do
  let timeout ← s.checkinteger num 1
  .ok ([.integer lasSYieldForEv, .integer (cInt timeout)], s.lua)

/-- What `k_socket_ev_wait` pushes for the resource at index 3: the type again, and the
socket that the thread's table has for it. -/
def pushSocket (L : LbindState) : ApiRun LbindFn LbindState := do
  let L := (lbindGetThreadLocalVars cstr L [names.resSockTable]).1
  let L := (L.pushvalue 2).pushvalue 3
  L.gettable (-3)

/-- `k_socket_ev_wait`; a thread is resumed with `LUA_YIELD`. -/
def kSocketEvWait (s : LuaWorker) : CallRun (LuaWorker × Nat) := do
  let type ← s.checkinteger num 2
  let type := cInt type
  if type = lasSResumeIo then do
    let s ← ofApi s.mw (pushSocket names s.lua)
    .ok ({ s with lua := s.lua.pushvalue 4 }, 3)
  else if type = lasSResumeIoError then do
    let s ← ofApi s.mw (pushSocket names s.lua)
    .ok (s.push .nil, 3)
  else if type = lasSResumeSleep then .ok ((s.push .nil).push .nil, 3)
  else .ok (s, 3)

end

end SocketEv

end Artorias
