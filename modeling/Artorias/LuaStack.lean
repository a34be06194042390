import Artorias.CRun

/-!
# Lua values on the stack of a C function

What the code pushes, yields and is resumed with. `LAS_*` are the codes by
which the worker and the sockets know what a yield waits for and what a resume
brings (`lua_utils.h`).
-/

namespace Artorias

/-- `num` and `str` are what `lua_tointegerx` and `lua_tolstring` make of the
value, if anything; `other` is for floats, booleans, tables and so on. -/
inductive LuaValue where
  | nil
  | integer (i : Int)
  | string (s : List (BitVec 8)) (num : Option Int)
  | userdata (u : Addr)
  | lightuserdata (p : Option Addr)
  | other (num : Option Int) (str : Option (List (BitVec 8)))
deriving Repr, DecidableEq

/-- `lua_isinteger` -/
def LuaValue.isInteger : LuaValue → Bool
  | .integer _ => true
  | _ => false

/-- `lua_tointegerx` -/
def LuaValue.toIntegerx : LuaValue → Option Int
  | .integer i => some i
  | .string _ num => num
  | .other num _ => num
  | .nil | .userdata _ | .lightuserdata _ => none

/-- `lua_tointeger` -/
def LuaValue.toInteger (v : LuaValue) : Int := v.toIntegerx.getD 0

/-- `lua_tolstring` -/
def LuaValue.toLstring : LuaValue → Option (List (BitVec 8))
  | .string s _ => some s
  | .integer i => some ((toString i).toList.map fun c => BitVec.ofNat 8 c.toNat)
  | .other _ str => str
  | .nil | .userdata _ | .lightuserdata _ => none

/-- `lua_touserdata` -/
def LuaValue.toUserdata : LuaValue → Option Addr
  | .userdata u => some u
  | .lightuserdata p => p
  | _ => none

/-- The stack from its bottom, `L[0]` being index 1. -/
abbrev LuaStack := List LuaValue

/-- The value at index `i`. -/
def LuaStack.val (L : LuaStack) (i : Nat) : LuaValue := L.getD (i - 1) .nil

/-- The value at index `-i`. -/
def LuaStack.top (L : LuaStack) (i : Nat) : LuaValue := L.getD (L.length - i) .nil

/-- `lua_pop(L, n)` -/
def LuaStack.pop (L : LuaStack) (n : Nat) : LuaStack := L.take (L.length - n)

inductive LuaError where
  /-- `luaL_checkinteger`, `luaL_checkudata` at an index. -/
  | badArgument (i : Nat)
  | message (s : String)
deriving Repr, DecidableEq

/-- `LAS_D_TIMOUT_SECS` -/
def lasDTimoutSecs : Int := 15

/-- `LAS_S_WAIT_FOR_INPUT` -/
def lasSWaitForInput : Int := 0x00
/-- `LAS_S_READY_TO_INPUT` -/
def lasSReadyToInput : Int := 0x02
/-- `LAS_S_READY_TO_OUTPUT` -/
def lasSReadyToOutput : Int := 0x03
/-- `LAS_S_YIELD_FOR_IO` -/
def lasSYieldForIo : Int := 0x05
/-- `LAS_S_YIELD_FOR_SLEEP` -/
def lasSYieldForSleep : Int := 0x06
/-- `LAS_S_YIELD_FOR_EV` -/
def lasSYieldForEv : Int := 0x07
/-- `LAS_S_RESUME_IO` -/
def lasSResumeIo : Int := 0x08
/-- `LAS_S_RESUME_IO_ERROR` -/
def lasSResumeIoError : Int := 0x09
/-- `LAS_S_RESUME_IO_TIMEOUT` -/
def lasSResumeIoTimeout : Int := 0x0a
/-- `LAS_S_RESUME_SLEEP` -/
def lasSResumeSleep : Int := 0x0b

end Artorias
