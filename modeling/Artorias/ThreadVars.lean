import Artorias.LuaApi

/-!
# Variables of a thread (`lua_bind.c`)

Each thread of the worker has a table of its own in `LRK_THREAD_LOCAL_VAR_TABLE`.
C code sets and gets any number of variables in one call, with the names and
the values in a `va_list`; both go through a protected call, whose function
finds them at computed places of its stack.
-/

namespace Artorias

def lrkFdThreadTable : String := "as_lrk_001"
def lrkThreadLocalVarTable : String := "as_lrk_002"
def lrkLcodeChunkTable : String := "as_lrk_003"
def lrkTidThreadTable : String := "as_lrk_004"
def lrkBytesRefTable : String := "as_lrk_007"

/-- `LTTYPE_THREAD_LOCAL_VAR` -/
def lttypeThreadLocalVar : Int := 0
/-- `LTTYPE_REGISTRY` -/
def lttypeRegistry : Int := 1

/-- The C functions that `lua_bind.c` calls for this. -/
inductive LbindFn where
  | initState
  | refTidLthread
  | unrefTidLthread
  | getThreadLocalVars
  | setVaList
deriving Repr, DecidableEq

abbrev LbindState := LuaState LbindFn

/-- What the `va_list` has for one variable after its name: an `LTYPE_*` and the
value, or where it is on the stack. -/
inductive VaArg where
  | int (ival : Int)
  | stack (idx : Int)
  | ptr (pval : Option Addr)
deriving Repr, DecidableEq

/-- `lbind_checkmetatable` -/
def lbindCheckmetatable (L : LbindState) (tname emsg : String) : ApiRun LbindFn LbindState :=
  let L := L.getmetatable tname
  if L.index (-1) = .nil then (L.push (.string emsg)).error else .ok L

/-! ## What is called -/

/-- `newL_weak_metatable`; that it is its own metatable does not show. -/
def newLWeakMetatable (L : LbindState) (name mode : String) : ApiRun LbindFn LbindState := do
  let L := (L.newmetatable name).pushvalue (-1)
  let L := (L.push (.string "__mode")).push (.string mode)
  let L ← L.settable (-3)
  .ok (L.pop 1)

/-- `lcf_init_state`, after `luaL_openlibs` -/
def lcfInitState (L : LbindState) : ApiRun LbindFn (LbindState × Nat) := do
  let L := L.newmetatable lrkFdThreadTable
  let L := L.newmetatable lrkLcodeChunkTable
  let L := L.newmetatable lrkTidThreadTable
  let L ← newLWeakMetatable L lrkThreadLocalVarTable "k"
  let L ← newLWeakMetatable L lrkBytesRefTable "k"
  .ok (L, 0)

/-- `lcf_ref_tid_lthread` -/
def lcfRefTidLthread (L : LbindState) : ApiRun LbindFn (LbindState × Nat) := do
  let tid : BitVec 32 := BitVec.ofInt 32 (L.index (-1)).toInteger
  let L ← lbindCheckmetatable L lrkTidThreadTable "tid thread table not exist"
  let L ← lbindCheckmetatable L lrkThreadLocalVarTable "thread local var table not exist"
  let L := L.newthread
  let L := (L.push (.integer tid.toNat)).pushvalue (-2)
  let L ← L.settable (-5)
  let L := (L.pushvalue (-1)).newtable
  let L ← L.settable (-4)
  .ok (L, 1)

/-- `lcf_unref_tid_lthread` -/
def lcfUnrefTidLthread (L : LbindState) : ApiRun LbindFn (LbindState × Nat) := do
  let tid : BitVec 32 := BitVec.ofInt 32 (L.index (-1)).toInteger
  let L ← lbindCheckmetatable L lrkTidThreadTable "tid thread table not exist"
  let L := (L.push (.integer tid.toNat)).push .nil
  let L ← L.settable (-3)
  .ok (L, 0)

section
variable (cstr : Addr → String)

/-- `for (int i = 1; i <= n; ++i)` of `lcf_get_thread_local_vars`, with `k` turns
to go. -/
def getVarsLoop (n : Nat) : Nat → LbindState → ApiRun LbindFn LbindState
  | 0, L => .ok L
  | k + 1, L => do
      let field := (L.index 1).toUserdata
      let L := L.pushstring cstr field
      let L ← L.gettable (n + 2)
      getVarsLoop n k L

/-- `lcf_get_thread_local_vars` -/
def lcfGetThreadLocalVars (L : LbindState) : ApiRun LbindFn (LbindState × Nat) := do
  let n := L.gettop
  let L ← lbindCheckmetatable L lrkThreadLocalVarTable "thread local var table not exist"
  let L := L.pushthread
  let L ← L.gettable (-2)
  let L ← getVarsLoop cstr n n L
  .ok (L, n)

/-- `for (int i = 1; i <= n / 2; ++i)` of `lcf_set_va_list`, with `k` turns to
go. -/
def setVarsLoop (tidx : Int) : Nat → Nat → LbindState → ApiRun LbindFn LbindState
  | 0, _, L => .ok L
  | k + 1, i, L => do
      let field := (L.index (i * 2)).toUserdata
      let L := L.pushstring cstr field
      let L := L.pushvalue (i * 2 + 1)
      let L ← L.settable tidx
      setVarsLoop tidx k (i + 1) L

/-- `lcf_set_va_list` -/
def lcfSetVaList (L : LbindState) : ApiRun LbindFn (LbindState × Nat) :=
  let n := L.gettop
  let ttype := (L.index 1).toInteger
  if ttype = lttypeRegistry then do
    let L ← setVarsLoop cstr luaRegistryindex (n / 2) 1 L
    .ok (L, 0)
  else do
    let L ← lbindCheckmetatable L lrkThreadLocalVarTable "thread local var table not exist"
    let L := L.pushthread
    let L ← L.gettable (-2)
    let L ← setVarsLoop cstr (n + 2) (n / 2) 1 L
    .ok (L, 0)

def lbindCall : LbindFn → LbindState → ApiRun LbindFn (LbindState × Nat)
  | .initState => lcfInitState
  | .refTidLthread => lcfRefTidLthread
  | .unrefTidLthread => lcfUnrefTidLthread
  | .getThreadLocalVars => lcfGetThreadLocalVars cstr
  | .setVaList => lcfSetVaList cstr

theorem lbindCall_setVaList : lbindCall cstr .setVaList = lcfSetVaList cstr := rfl

theorem lbindCall_initState : lbindCall cstr .initState = lcfInitState := rfl

theorem lbindCall_refTidLthread : lbindCall cstr .refTidLthread = lcfRefTidLthread := rfl

theorem lbindCall_unrefTidLthread : lbindCall cstr .unrefTidLthread = lcfUnrefTidLthread := rfl

/-! ## Its callers -/

/-- `if (ret != LUA_OK)`, with `lb_pop_error_msg` -/
def popErrorMsg (r : LbindState × Bool) : LbindState × Bool := if r.2 then r else (r.1.pop 1, false)

/-- `lbind_init_state` -/
def lbindInitState (L : LbindState) : LbindState × Bool :=
  popErrorMsg ((L.push (.cfunction .initState)).pcall (lbindCall cstr) 0 0)

/-- `lbind_ref_tid_lthread`, and the thread it answers -/
def lbindRefTidLthread (L : LbindState) (tid : BitVec 32) : LbindState × Option Nat :=
  let L := (L.push (.cfunction .refTidLthread)).push (.integer tid.toNat)
  match L.pcall (lbindCall cstr) 1 1 with
  | (L, true) =>
      (L.pop 1, match L.index (-1) with
        | .thread T => some T
        | _ => none)
  | (L, false) => (L.pop 1, none)

/-- `lbind_unref_tid_lthread` -/
def lbindUnrefTidLthread (L : LbindState) (tid : BitVec 32) : LbindState × Bool :=
  let L := (L.push (.cfunction .unrefTidLthread)).push (.integer tid.toNat)
  popErrorMsg (L.pcall (lbindCall cstr) 1 0)

/-- `lbind_get_thread_local_vars`, with `n` names in the `va_list` -/
def lbindGetThreadLocalVars (L : LbindState) (fields : List Addr) : LbindState × Bool :=
  let L := fields.foldl (fun L field => L.push (.lightuserdata (some field)))
    (L.push (.cfunction .getThreadLocalVars))
  popErrorMsg (L.pcall (lbindCall cstr) fields.length fields.length)

/-- One turn of the loop of `_lbind_set_va_list`; `sn` is the top at its start. -/
def pushVaArg (sn : Nat) (L : LbindState) (arg : Addr × VaArg) : LbindState :=
  let L := L.push (.lightuserdata (some arg.1))
  match arg.2 with
  | .int ival => L.push (.integer ival)
  | .stack idx => L.pushvalue (if idx < 0 then sn + idx + 1 else idx)
  | .ptr pval => L.push (.lightuserdata pval)

/-- `_lbind_set_va_list`, with `n` pairs in the `va_list` -/
def lbindSetVaList (L : LbindState) (ttype : Int) (args : List (Addr × VaArg)) :
    LbindState × Bool :=
  let sn := L.gettop
  let L := (L.push (.cfunction .setVaList)).push (.integer ttype)
  let L := args.foldl (pushVaArg sn) L
  popErrorMsg (L.pcall (lbindCall cstr) (2 * args.length + 1) 0)

/-- `lbind_set_thread_local_vars` -/
def lbindSetThreadLocalVars (L : LbindState) (args : List (Addr × VaArg)) : LbindState × Bool :=
  lbindSetVaList cstr L lttypeThreadLocalVar args

end

end Artorias
