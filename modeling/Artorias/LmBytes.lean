import Artorias.BytesRead
import Artorias.SocketEvCalls
import Artorias.SocketSend

/-!
# Reading all there is (`lm_bytes.c`)

`sread_all` of a socket is to return a reference to the bytes that have come, all of
them. It never does: `sreadAll_loses`. `bytes_read_from_fd` comes to an end at the end
of the connection only, and then `lua_settable(L, -4)` finds the `as_bytes_t`, where
the table of references was meant, and raises an error. Neither userdata has
`__newindex`, with its metatable or without.
-/

namespace Artorias

open LuaState

/-- `LM_BYTES` -/
def lmBytes : String := "as_lm_003"

namespace LmBytes

/-- `errno`, from what `read` has answered -/
def errnoAfter (errno : Int) (outs : List ReadOutcome) : Int :=
  outs.foldl (fun errno o => match o with
    | .got _ => errno
    | .again => eAgain
    | .failed e => e) errno

/-- A userdata with an `as_bytes_t`; `gc` is for the metatable with `__gc`, which
alone gives the blocks back, and which `inc_lm_bytes_metatable` would register. -/
structure BytesUdata where
  bs : AsBytes
  gc : Bool
deriving Repr, DecidableEq

/-- `as_lm_bytes_ref_t`, `b_start` being the first block -/
structure BytesRef where
  ori : Addr
  offset : Nat
  len : BitVec 64
deriving Repr, DecidableEq

/-- What a call leaves: Lua, the userdata that it has read into, and the answers of
`read` that it has not taken. -/
structure BytesLeft where
  lua : LbindState
  bytes : Option BytesUdata
  left : List ReadOutcome

inductive BytesStop where
  | raised (s : BytesLeft)
  /-- `read` is called once more than there are answers. -/
  | another
  | fault

/-- What `luaL_getmetatable(L, LM_BYTES)` finds: `inc_lm_bytes_metatable` has been
called, which nothing does. -/
def hasBytesMeta (L : LbindState) : Bool := L.tables L.registry (.string lmBytes) ≠ .nil

def ofLua (bytes : Option BytesUdata) (left : List ReadOutcome) :
    ApiRun LbindFn LbindState → Except BytesStop LbindState
  | .ok L => .ok L
  | .error (_, L) => .error (.raised ⟨L, bytes, left⟩)

@[simp] theorem bytesBind_ok {α β : Type} (a : α) (f : α → Except BytesStop β) :
    ((Except.ok a : Except BytesStop α) >>= f) = f a := rfl

/-- `lcf_bytes_read_from_fd`; `lua_newuserdata` makes `u`, then `v`. -/
def lcfBytesReadFromFd (num : LuaObj LbindFn → Option Int) (u v : Addr) (L : LbindState)
    (outs : List ReadOutcome) : Except BytesStop (BytesLeft × Option BytesRef) :=
  match (L.index 1).toIntegerx num with
  | none => .error (.raised ⟨L.push (.string "bad argument"), none, outs⟩)
  | some _ => do
      let L ← ofLua none outs (lbindCheckmetatable L lrkBytesRefTable "bytes ref table not exist")
      let L ← ofLua none outs (SocketEv.lbindCheckregvalue L SocketEv.lrkWorkerCtx "no worker ctx")
      let L := L.push (.userdata u)
      match bytesReadFromFd bytesInit outs with
      | .error .another => .error .another
      | .ok (bs, size, left) =>
          if size = BitVec.ofInt 64 (-1) then .ok (⟨L.push .nil, some ⟨bs, false⟩, left⟩, none)
          else do
            let bytes : BytesUdata := ⟨bs, hasBytesMeta L⟩
            let L := L.push (.userdata v)
            let L := (L.pushvalue (-1)).pushvalue (-2)
            let L ← ofLua bytes left (L.settable (-4))
            .ok (⟨L, bytes, left⟩, some ⟨u, 0, size⟩)

/-- `n, buf, err` of `sread_all` -/
structure SreadAll where
  n : Int
  ref : Option BytesRef
  err : Option Int
deriving Repr, DecidableEq

/-- `lcf_socket_sread_all` after `lua_call` -/
def sreadAllReturn (errno : Int) (s : SocketEv.LuaWorker) (outs : List ReadOutcome) (m : BytesLeft)
    (ref : Option BytesRef) : SreadAll × BytesLeft :=
  let errno := errnoAfter errno (outs.take (outs.length - m.left.length))
  let x := m.lua.index (-1)
  let m := { m with lua := m.lua.withStack (s.lua.stack ++ [x]) }
  match x.toUserdata, ref with
  | some _, some br => (⟨br.len.toInt, some br, none⟩, m)
  | _, _ => (⟨0, none, some errno⟩, m)

/-- `lcf_socket_sread_all`; the `lua_call` is of `lcf_bytes_read_from_fd`. -/
def lcfSocketSreadAll (num : LuaObj LbindFn → Option Int) (u v : Addr) (errno : Int)
    (s : SocketEv.LuaWorker) (outs : List ReadOutcome) : Except BytesStop (SreadAll × BytesLeft) :=
  match s.checkudata 1 with
  | .error (.raised s) => .error (.raised ⟨s.lua, none, outs⟩)
  | .error (.fault _) => .error .fault
  | .ok (_, sock) =>
      match sock.res with
      | none => .ok (⟨0, none, some eBadfd⟩, ⟨s.lua, none, outs⟩)
      | some res =>
          match s.mw.ress res with
          | none => .error .fault
          | some r => do
              let (m, ref) ← lcfBytesReadFromFd num u v (s.lua.withStack [.integer r.d]) outs
              .ok (sreadAllReturn errno s outs m ref)

/-! ## The loop -/

/-- No call of `read` has come to the end of the file. -/
def Open (outs : List ReadOutcome) : Prop := ∀ o ∈ outs, o.nbyte ≠ 0

theorem readLoop_open {outs : List ReadOutcome} (h : Open outs) (bs : AsBytes) (rsize : Nat)
    (n : BitVec 64) (left : List ReadOutcome) :
    ∃ bs' rsize', readLoop bs rsize n (outs ++ left)
        = readLoop bs' rsize' (n + (outs.map ReadOutcome.nbyte).sum) left
      ∧ bs'.blocks.map BytesBlock.d = bs.blocks.map BytesBlock.d ++ outs.map ReadOutcome.data := by
  induction outs generalizing bs rsize n with
  | nil => exact ⟨bs, rsize, by simp, by simp⟩
  | cons o outs ih =>
      have hpos : o.nbyte > 0 := (BitVec.pos_iff_ne_zero _).mpr (h o List.mem_cons_self)
      obtain ⟨bs', rsize', hrun, hdata⟩ := ih (fun o' ho' => h o' (List.mem_cons_of_mem _ ho'))
        (bs.add ⟨BitVec.ofNat 64 rsize, o.nbyte, o.data⟩)
        (if rsize < maxBlockSize then rsize * 2 else rsize) (n + o.nbyte)
      refine ⟨bs', rsize', ?_, ?_⟩
      · rw [List.cons_append, readLoop_cons, if_pos hpos, hrun, List.map_cons, List.sum_cons,
          BitVec.add_assoc]
      · rw [hdata]
        simp [AsBytes.add]

/-- The bytes that `read` has got. -/
def gotten (outs : List ReadOutcome) : List UInt8 := outs.flatMap ReadOutcome.data

/-- How often `read` has failed. -/
def failures (outs : List ReadOutcome) : Nat :=
  outs.countP fun o => match o with
    | .got _ => false
    | .again | .failed _ => true

/-- A failed `read` counts for -1 byte in the `size_t`, so what the function returns falls
short of the bytes by the number of failures. -/
theorem sum_nbyte (outs : List ReadOutcome) :
    (outs.map ReadOutcome.nbyte).sum + BitVec.ofNat 64 (failures outs)
      = BitVec.ofNat 64 (gotten outs).length := by
  induction outs with
  | nil => rfl
  | cons o outs ih =>
      have hfail : ∀ n : Nat, BitVec.ofInt 64 (-1) + (outs.map ReadOutcome.nbyte).sum
          + BitVec.ofNat 64 (n + 1) = (outs.map ReadOutcome.nbyte).sum + BitVec.ofNat 64 n := by
        intro n
        rw [BitVec.ofNat_add, BitVec.add_comm (BitVec.ofInt 64 (-1)), BitVec.add_assoc]
        congr 1
        rw [BitVec.add_comm (BitVec.ofNat 64 n), ← BitVec.add_assoc]
        exact BitVec.zero_add _
      have hcount : failures (.again :: outs) = failures outs + 1
          ∧ ∀ e, failures (.failed e :: outs) = failures outs + 1 := by simp [failures]
      rw [List.map_cons, List.sum_cons]
      cases o with
      | got bytes =>
          have hcount : failures (.got bytes :: outs) = failures outs := by simp [failures]
          have hlen :
              (gotten (.got bytes :: outs)).length = bytes.length + (gotten outs).length := by
            simp [gotten, ReadOutcome.data]
          rw [hcount, hlen, BitVec.ofNat_add, ← ih, BitVec.add_assoc]
          rfl
      | again =>
          rw [hcount.1]
          exact (hfail _).trans ih
      | failed e =>
          rw [hcount.2 e]
          exact (hfail _).trans ih

/-- The function is told of an error by a count of -1, which comes about exactly if as many
calls have failed as there are bytes, and one more. -/
theorem sum_eq_neg_one_iff (outs : List ReadOutcome) :
    (outs.map ReadOutcome.nbyte).sum = BitVec.ofInt 64 (-1)
      ↔ BitVec.ofNat 64 ((gotten outs).length + 1) = BitVec.ofNat 64 (failures outs) := by
  rw [BitVec.ofNat_add, ← sum_nbyte]
  generalize (outs.map ReadOutcome.nbyte).sum = x
  generalize BitVec.ofNat 64 (failures outs) = y
  have hone : (BitVec.ofNat 64 1) = 1 := rfl
  rw [hone, show BitVec.ofInt 64 (-1) = (-1 : BitVec 64) from rfl]
  constructor
  · rintro rfl
    rw [BitVec.add_comm (-1), BitVec.add_assoc]
    exact BitVec.add_zero _
  · intro h
    bv_omega

theorem bytesRead_open {outs : List ReadOutcome} (h : Open outs) :
    bytesReadFromFd bytesInit outs = .error .another := by
  obtain ⟨bs, rsize, hrun, -⟩ := readLoop_open h bytesInit 64 0 []
  rw [List.append_nil] at hrun
  rw [bytesReadFromFd, hrun, readLoop]

theorem bytesRead_end {outs : List ReadOutcome} (h : Open outs) {last : ReadOutcome}
    (hlast : last.nbyte = 0) (left : List ReadOutcome) :
    ∃ bs, bytesReadFromFd bytesInit (outs ++ last :: left)
        = .ok (bs, (outs.map ReadOutcome.nbyte).sum, left)
      ∧ bs.blocks.map BytesBlock.d = (outs ++ [last]).map ReadOutcome.data := by
  obtain ⟨bs, rsize, hrun, hdata⟩ := readLoop_open h bytesInit 64 0 (last :: left)
  refine ⟨bs.add ⟨BitVec.ofNat 64 rsize, last.nbyte, last.data⟩, ?_, ?_⟩
  · rw [bytesReadFromFd, hrun, readLoop_cons, if_neg (by rw [hlast]; decide), hlast, add_zero,
      zero_add]
  · simp [AsBytes.add, hdata, bytesInit]

/-! ## The call -/

/-- A worker whose Lua state has been set up, and a socket with a descriptor at
index 1. -/
structure Ready (s : SocketEv.LuaWorker) : Prop where
  socket : ∃ x sock res r, s.lua.index 1 = .userdata x ∧ s.mw.socks x = some sock
    ∧ sock.res = some res ∧ s.mw.ress res = some r
  refs : ∃ t, s.lua.tables s.lua.registry (.string lrkBytesRefTable) = .table t
  ctx : ∃ p, s.lua.tables s.lua.registry (.string SocketEv.lrkWorkerCtx) = .lightuserdata p

variable (num : LuaObj LbindFn → Option Int) (u v : Addr) {s : SocketEv.LuaWorker}

/-- At index -4 of the stack, below the key and the value and the reference, is the
`as_bytes_t` and not the table: the store raises an error, and nothing is left in
the table. -/
theorem settable_bytes (L : LbindState) (ys : List (LuaObj LbindFn)) (u v : Addr) : ∃ L',
    ((((L.above (ys ++ [.userdata u])).push
      (.userdata v)).pushvalue (-1)).pushvalue (-2)).settable (-4)
      = .error (.string "attempt to index a value", L') := by
  let x : LuaObj LbindFn := .userdata v
  have htop : ((L.above (ys ++ [.userdata u])).push x).pushvalue (-1)
      = L.above (ys ++ [.userdata u, x, x]) := by
    rw [above_push, pushvalue, above_index_top, above_push]
    simp
  have hsecond : (L.above (ys ++ [.userdata u, x, x])).pushvalue (-2)
      = L.above (ys ++ [.userdata u, x, x, x]) := by
    have h := above_index_second L (ys ++ [.userdata u]) x x
    rw [List.append_assoc] at h
    rw [pushvalue, show [.userdata u, x, x] = [.userdata u] ++ [x, x] from rfl, h, above_push]
    simp
  have hfourth : (L.above (ys ++ [.userdata u, x, x, x])).index (-4) = .userdata u :=
    above_index_neg L ys [x, x, x] (.userdata u) rfl (by decide)
  rw [htop, hsecond, settable, hfourth]
  dsimp only
  rw [error, push_eq, above_above, above_index_top]
  exact ⟨_, rfl⟩

theorem lbindCheckregvalue_eq {L : LbindState} {field emsg : String} {p : Option Addr}
    (h : L.tables L.registry (.string field) = .lightuserdata p) :
    SocketEv.lbindCheckregvalue L field emsg = .ok (L.above [.lightuserdata p]) := by
  have hget : (L.above [.string field]).gettable luaRegistryindex
      = .ok (L.above [L.tables L.registry (.string field)]) :=
    gettable_eq L [] (index_registry _)
  have htop : (L.above [.lightuserdata p]).index (-1) = .lightuserdata p := above_index_top L [] _
  rw [SocketEv.lbindCheckregvalue, push_eq, hget, h, luaBind_ok, htop]

/-- `lcf_bytes_read_from_fd` on a state that is set up, by what `bytes_read_from_fd`
returns: for a count of -1 it answers nil, and for any other it gets as far as the store
into a userdata, which raises. -/
theorem lcfBytesReadFromFd_eq (h : Ready s) (fd : Int) (outs : List ReadOutcome) :
    ∃ L L' : LbindState,
      lcfBytesReadFromFd num u v (s.lua.withStack [.integer fd]) outs
        = match bytesReadFromFd bytesInit outs with
      | .error .another => .error .another
      | .ok (bs, size, left) =>
          if size = BitVec.ofInt 64 (-1) then .ok (⟨L.push .nil, some ⟨bs, false⟩, left⟩, none)
          else .error (.raised ⟨L', some ⟨bs, hasBytesMeta s.lua⟩, left⟩) := by
  obtain ⟨t, ht⟩ := h.refs
  obtain ⟨p, hp⟩ := h.ctx
  let L := s.lua.withStack [.integer fd]
  have hmeta : lbindCheckmetatable L lrkBytesRefTable "bytes ref table not exist"
      = .ok (L.above [.table t]) := lbindCheckmetatable_eq ht
  have hreg : SocketEv.lbindCheckregvalue (L.above [.table t]) SocketEv.lrkWorkerCtx "no worker ctx"
      = .ok ((L.above [.table t]).above [.lightuserdata p]) := lbindCheckregvalue_eq hp
  have hpush : ((L.above [.table t]).above [.lightuserdata p]).push (.userdata u)
      = L.above ([.table t, .lightuserdata p] ++ [.userdata u]) := by
    rw [above_above, above_push]
    rfl
  have hindex : L.index 1 = .integer fd := rfl
  obtain ⟨L', hset⟩ := settable_bytes L [.table t, .lightuserdata p] u v
  refine ⟨L.above ([.table t, .lightuserdata p] ++ [.userdata u]), L', ?_⟩
  change lcfBytesReadFromFd num u v L outs = _
  rw [lcfBytesReadFromFd, hindex]
  dsimp only [LuaObj.toIntegerx]
  rw [hmeta]
  dsimp only [ofLua, bytesBind_ok]
  rw [hreg]
  dsimp only [bytesBind_ok]
  rw [hpush]
  cases bytesReadFromFd bytesInit outs with
  | error e => rfl
  | ok r =>
      obtain ⟨bs, size, left⟩ := r
      dsimp only
      by_cases hsize : size = BitVec.ofInt 64 (-1)
      · rw [if_pos hsize, if_pos hsize]
      · rw [if_neg hsize, if_neg hsize, hset]
        rfl

theorem lcfSocketSreadAll_eq (h : Ready s) (errno : Int) (outs : List ReadOutcome) : ∃ fd,
    lcfSocketSreadAll num u v errno s outs
      = lcfBytesReadFromFd num u v (s.lua.withStack [.integer fd]) outs >>= fun r =>
        .ok (sreadAllReturn errno s outs r.1 r.2) := by
  obtain ⟨x, sock, res, r, hx, hsock, hres, hr⟩ := h.socket
  have hcheck : s.checkudata 1 = .ok (x, sock) := by
    rw [SocketEv.LuaWorker.checkudata, hx]
    dsimp only
    rw [hsock]
  refine ⟨r.d, ?_⟩
  rw [lcfSocketSreadAll, hcheck]
  dsimp only
  rw [hres]
  dsimp only
  rw [hr]

theorem sreadAllReturn_none (errno : Int) (s : SocketEv.LuaWorker) (outs : List ReadOutcome)
    (m : BytesLeft) : sreadAllReturn errno s outs m none
      = (⟨0, none, some (errnoAfter errno (outs.take (outs.length - m.left.length)))⟩,
        { m with lua := m.lua.withStack (s.lua.stack ++ [m.lua.index (-1)]) }) := by
  rw [sreadAllReturn.eq_def]
  dsimp only
  cases (m.lua.index (-1)).toUserdata <;> rfl

theorem errnoAfter_end (errno : Int) {outs : List ReadOutcome} {last : ReadOutcome}
    (hlast : last.nbyte = 0) : errnoAfter errno (outs ++ [last]) = errnoAfter errno outs := by
  cases last with
  | got bytes => simp [errnoAfter]
  | again => exact absurd hlast (by decide)
  | failed e => exact absurd hlast (by decide : ¬BitVec.ofInt 64 (-1) = 0)

/-- Until the connection ends, `sread_all` goes on reading. Then it raises an error; or, if
as many calls of `read` have failed as there are bytes, and one more, it reports the last
failure. The bytes are gone either way, and the blocks, as long as the userdata has no
metatable. -/
theorem sreadAll_loses (h : Ready s) (errno : Int) {outs : List ReadOutcome} (hopen : Open outs) :
    lcfSocketSreadAll num u v errno s outs = .error .another
      ∧ ∀ last left, last.nbyte = 0 → ∃ L bs,
        bs.blocks.map BytesBlock.d = (outs ++ [last]).map ReadOutcome.data
          ∧ lcfSocketSreadAll num u v errno s (outs ++ last :: left)
            = if BitVec.ofNat 64 ((gotten outs).length + 1) = BitVec.ofNat 64 (failures outs) then
                .ok (⟨0, none, some (errnoAfter errno outs)⟩, ⟨L, some ⟨bs, false⟩, left⟩)
              else .error (.raised ⟨L, some ⟨bs, hasBytesMeta s.lua⟩, left⟩) := by
  constructor
  · obtain ⟨fd, hcall⟩ := lcfSocketSreadAll_eq num u v h errno outs
    obtain ⟨L, L', hread⟩ := lcfBytesReadFromFd_eq num u v h fd outs
    rw [hcall, hread, bytesRead_open hopen]
    rfl
  · intro last left hlast
    obtain ⟨fd, hcall⟩ := lcfSocketSreadAll_eq num u v h errno
      (outs ++ last :: left)
    obtain ⟨L, L', hread⟩ := lcfBytesReadFromFd_eq num u v h fd
      (outs ++ last :: left)
    obtain ⟨bs, hrun, hdata⟩ := bytesRead_end hopen hlast left
    rw [hrun] at hread
    dsimp only at hread
    by_cases hsum : (outs.map ReadOutcome.nbyte).sum = BitVec.ofInt 64 (-1)
    · rw [if_pos hsum] at hread
      have htaken : (outs ++ last :: left).take ((outs ++ last :: left).length - left.length)
          = outs ++ [last] := by
        rw [show outs ++ last :: left = (outs ++ [last]) ++ left by simp, List.length_append,
          Nat.add_sub_cancel, List.take_left]
      refine ⟨L.withStack (s.lua.stack ++ [(L.push .nil).index (-1)]), bs, hdata, ?_⟩
      rw [if_pos ((sum_eq_neg_one_iff outs).mp hsum), hcall, hread, bytesBind_ok,
        sreadAllReturn_none,
        htaken, errnoAfter_end errno hlast]
      rfl
    · rw [if_neg hsum] at hread
      refine ⟨L', bs, hdata, ?_⟩
      rw [if_neg fun heq => hsum ((sum_eq_neg_one_iff outs).mpr heq), hcall, hread]
      rfl

/-- Socket 60, whose descriptor is 5, on the stack of a thread. -/
def readerLua : LbindState where
  stack := [.userdata 60]
  thread := 0
  tables _ k :=
    if k = .string lrkBytesRefTable then .table 1
    else if k = .string SocketEv.lrkWorkerCtx then .lightuserdata none else .nil
  registry := 0
  next := 2

def readerWorker : SocketEv.LuaWorker where
  lua := readerLua
  mw := { startWorker with
    ress := fun a => if a = 20 then some ⟨true, .idle, none, 5, 0⟩ else none
    socks := fun x => if x = 60 then some ⟨some 20, .custom, 0⟩ else none }

theorem readerWorker_ready : Ready readerWorker where
  socket := ⟨60, _, 20, _, rfl, rfl, rfl, rfl⟩
  refs := ⟨1, rfl⟩
  ctx := ⟨none, rfl⟩

/-- `read` gives "OK", fails once, and comes to the end. -/
theorem sreadAll_loses_ok : ∃ L bs, bs.blocks.map BytesBlock.d = [[79, 75], [], []]
    ∧ lcfSocketSreadAll (fun _ => none) 61 62 0 readerWorker [.got [79, 75], .again, .got []]
      = .error (.raised ⟨L, some ⟨bs, false⟩, []⟩) := by
  have hopen : Open [.got [79, 75], .again] := by simp [Open, ReadOutcome.nbyte]
  obtain ⟨L, bs, hdata, hcall⟩ :=
    (sreadAll_loses (fun _ => none) 61 62 readerWorker_ready 0 hopen).2 (.got []) [] rfl
  rw [if_neg (by decide)] at hcall
  exact ⟨L, bs, hdata, hcall⟩

end LmBytes

end Artorias
