import Artorias.LuaApi
import Artorias.Worker

/-!
# Reading the configuration (`lua_pconf.c`)

The configuration is what a script has left in the global `as_config`: tables in
tables, with values of any kind. `lpconf_get_pconf_value` goes down by a list of
names, on the stack of a protected call. It is a lookup along the path
(`pathValue`), and no call shows in the next: `pconfValues_eq`.
-/

namespace Artorias

open LuaState

namespace LuaPconf

/-- The C function that is called. -/
inductive PconfFn where
  | getValue
deriving Repr, DecidableEq

abbrev PconfState := LuaState PconfFn

/-- `LUA_RIDX_GLOBALS` -/
def luaRidxGlobals : Int := 2

def globalValue (L : PconfState) (name : String) : LuaObj PconfFn :=
  match L.contents (L.tables L.registry (.integer luaRidxGlobals)) with
  | some globals => globals (.string name)
  | none => .nil

/-- `lua_getglobal` -/
def getglobal (L : PconfState) (name : String) : PconfState := L.push (globalValue L name)

/-- The loop of `lcf_get_value`, with `k` names to go. -/
def getValueLoop : Nat → Nat → PconfState → ApiRun PconfFn PconfState
  | 0, _, L => .ok L
  | k + 1, i, L =>
      match L.index (-1) with
      | .table _ => do
          let L ← (L.pushvalue i).gettable (-2)
          getValueLoop k (i + 1) L
      | _ => .ok (L.push .nil)

/-- `lcf_get_value` -/
def lcfGetValue (L : PconfState) : ApiRun PconfFn (PconfState × Nat) := do
  let n := L.gettop
  let L ← getValueLoop n 1 (getglobal L "as_config")
  .ok (L, 1)

def pconfCall : PconfFn → PconfState → ApiRun PconfFn (PconfState × Nat)
  | .getValue => lcfGetValue

/-- `as_cnf_return_t` by its type; `none` has nothing in the union. -/
inductive CnfReturn where
  | none
  | nil
  | number (i : Int)
  | string (s : String)
deriving Repr, DecidableEq

/-- The `switch` on `lua_type`; `float` is what `lua_tointeger` makes of a float. -/
def cnfReturn (float : Nat → Option Int) : LuaObj PconfFn → CnfReturn
  | .nil => .nil
  | .integer i => .number (cInt i)
  | .string s => .string s
  | .other x =>
      match float x with
      | some i => .number (cInt i)
      | Option.none => .none
  | .lightuserdata _ | .userdata _ | .table _ | .thread _ | .cfunction _ => .none

/-- `lpconf_get_pconf_value`, with `n` names in the `va_list` -/
def lpconfGetPconfValue (cstr : Addr → String) (float : Nat → Option Int) (L : PconfState)
    (fields : List (Option Addr)) : PconfState × CnfReturn :=
  let L := fields.foldl (fun L field => L.pushstring cstr field) (L.push (.cfunction .getValue))
  match L.pcall pconfCall fields.length 1 with
  | (L, false) => (L.pop 1, .none)
  -- `lua_pop(L, -1)` is `lua_settop(L, 0)`
  | (L, true) => (L.withStack [], cnfReturn float (L.index (-1)))

/-- One call after the other -/
def pconfValues (cstr : Addr → String) (float : Nat → Option Int) (L : PconfState) :
    List (List (Option Addr)) → PconfState × List CnfReturn
  | [] => (L, [])
  | fields :: queries =>
      let r := lpconfGetPconfValue cstr float L fields
      let rs := pconfValues cstr float r.1 queries
      (rs.1, r.2 :: rs.2)

/-! ## The path -/

/-- What is under a path of keys, `nil` where it leaves the tables -/
def pathValue (L : PconfState) : LuaObj PconfFn → List (LuaObj PconfFn) → LuaObj PconfFn
  | v, [] => v
  | .table t, k :: ks => pathValue L (L.tables t k) ks
  | .nil, _ :: _ | .integer _, _ :: _ | .string _, _ :: _ | .lightuserdata _, _ :: _
  | .userdata _, _ :: _ | .thread _, _ :: _ | .cfunction _, _ :: _ | .other _, _ :: _ => .nil

/-- A name as it is pushed -/
def fieldKey (cstr : Addr → String) (field : Option Addr) : LuaObj PconfFn :=
  match field with
  | Option.none => .nil
  | some p => .string (cstr p)

theorem index_stack {L : PconfState} {done ks : List (LuaObj PconfFn)} {k : LuaObj PconfFn}
    (h : L.stack = done ++ k :: ks) (ys : List (LuaObj PconfFn)) :
    (L.above ys).index (done.length + 1 : Nat) = k := by
  have hlen : L.stack.length = done.length + (ks.length + 1) := by
    rw [h, List.length_append, List.length_cons]
  rw [above_index L ys (by omega) (by rw [gettop]; omega)]
  have hnew := above_index_new (L.withStack []) done ks k (i := (done.length + 1 : Nat)) (by
    simp [gettop, withStack])
  rwa [above, withStack, withStack, List.nil_append, ← h] at hnew

/-- The loop leaves the names at the bottom and the tables that it has gone through above
them; what it ends with on the top is the value under all the names, whatever the tables
hold. -/
theorem getValueLoop_eq {L : PconfState} {ks : List (LuaObj PconfFn)} :
    ∀ (done ys : List (LuaObj PconfFn)) (v : LuaObj PconfFn), L.stack = done ++ ks →
      ∃ zs, getValueLoop ks.length (done.length + 1) (L.above (ys ++ [v]))
        = .ok (L.above (zs ++ [pathValue L v ks])) := by
  induction ks with
  | nil =>
      intro done ys v _
      exact ⟨ys, rfl⟩
  | cons k ks ih =>
      intro done ys v hstack
      rw [List.length_cons, getValueLoop, above_index_top]
      cases v with
      | table t =>
          have hkey := index_stack hstack (ys ++ [.table t])
          have htable : (L.above ((ys ++ [.table t]) ++ [k])).index (-2) = .table t := by
            rw [List.append_assoc]
            exact above_index_second L ys (.table t) k
          obtain ⟨zs, hrest⟩ := ih (done ++ [k]) (ys ++ [.table t]) (L.tables t k)
            (by rw [hstack, List.append_assoc]; rfl)
          refine ⟨zs, ?_⟩
          dsimp only
          rw [pushvalue, hkey, above_push, gettable_eq L _ htable, luaBind_ok]
          rwa [List.length_append] at hrest
      | _ =>
          exact ⟨_, congrArg Except.ok (above_push ..)⟩

theorem pathValue_withStack (L : PconfState) (xs : List (LuaObj PconfFn)) (v : LuaObj PconfFn)
    (ks : List (LuaObj PconfFn)) : pathValue (L.withStack xs) v ks = pathValue L v ks := by
  induction ks generalizing v with
  | nil => rfl
  | cons k ks ih =>
      cases v with
      | table t => exact ih _
      | _ => rfl

/-- `lcf_get_value` with the names alone on its stack returns what is under them. -/
theorem lcfGetValue_eq (L : PconfState) (ks : List (LuaObj PconfFn)) : ∃ xs,
    lcfGetValue (L.withStack ks)
      = .ok ((L.withStack xs).above [pathValue L (globalValue L "as_config") ks], 1) := by
  obtain ⟨zs, hloop⟩ := getValueLoop_eq (L := L.withStack ks) [] []
    (globalValue L "as_config") rfl
  refine ⟨ks ++ zs, ?_⟩
  have hglobal : getglobal (L.withStack ks) "as_config"
      = (L.withStack ks).above ([] ++ [globalValue L "as_config"]) := rfl
  have hgettop : (L.withStack ks).gettop = ks.length := rfl
  rw [lcfGetValue, hglobal, hgettop]
  change (getValueLoop ks.length (([] : List (LuaObj PconfFn)).length + 1) _ >>= _) = _
  rw [hloop, luaBind_ok, pathValue_withStack]
  simp [above, withStack]

/-- What the configuration has under the names -/
def configValue (cstr : Addr → String) (L : PconfState) (fields : List (Option Addr)) :
    LuaObj PconfFn :=
  pathValue L (globalValue L "as_config") (fields.map (fieldKey cstr))

theorem lpconfGetPconfValue_eq (cstr : Addr → String) (float : Nat → Option Int) (L : PconfState)
    (fields : List (Option Addr)) :
    lpconfGetPconfValue cstr float L fields
      = (L.withStack [], cnfReturn float (configValue cstr L fields)) := by
  have hfield : (fun (L : PconfState) field => L.pushstring cstr field)
      = fun L field => L.push (fieldKey cstr field) := by
    funext L field
    cases field <;> rfl
  have hpush : (L.push (.cfunction .getValue)).above (fields.map (fieldKey cstr))
      = L.above (.cfunction .getValue :: fields.map (fieldKey cstr)) := by
    rw [push_eq, above_above, List.singleton_append]
  obtain ⟨xs, hrun⟩ := lcfGetValue_eq L (fields.map (fieldKey cstr))
  have hcall : (L.above (.cfunction .getValue :: fields.map (fieldKey cstr))).pcall pconfCall
        fields.length 1
      = ((L.withStack xs).withStack (L.stack ++ [configValue cstr L fields]), true) :=
    pcall_eq hrun (List.length_map _).symm rfl
  rw [lpconfGetPconfValue, hfield, foldl_push, hpush, hcall]
  dsimp only
  have htop : ((L.withStack xs).withStack (L.stack ++ [configValue cstr L fields])).index (-1)
      = configValue cstr L fields := above_index_top L [] (configValue cstr L fields)
  rw [htop]
  rfl

theorem configValue_withStack (cstr : Addr → String) (L : PconfState) (xs : List (LuaObj PconfFn))
    (fields : List (Option Addr)) :
      configValue cstr (L.withStack xs) fields = configValue cstr L fields :=
  pathValue_withStack L xs _ _

/-- However often the configuration is asked, each answer is what is under the names: no
call raises an error, none changes a table, and none leaves anything on the stack, which is
empty after `lpconf_new`. -/
theorem pconfValues_eq (cstr : Addr → String) (float : Nat → Option Int) (L : PconfState)
    (queries : List (List (Option Addr))) :
    pconfValues cstr float (L.withStack []) queries
      = (L.withStack [], queries.map fun fields =>
        cnfReturn float (configValue cstr L fields)) := by
  induction queries with
  | nil => rfl
  | cons fields queries ih =>
      have hfirst : lpconfGetPconfValue cstr float (L.withStack []) fields
          = (L.withStack [], cnfReturn float (configValue cstr L fields)) := by
        rw [lpconfGetPconfValue_eq, configValue_withStack]
        rfl
      rw [pconfValues, hfirst]
      dsimp only
      rw [ih, List.map_cons]

end LuaPconf

end Artorias
