import Mathlib.Data.List.GetD
import Artorias.Settle

/-!
# The stack of a C function of Lua, and tables

What a C function sees of Lua 5.3: its own part of the stack, which is indexed
from the bottom (1, 2, ..) or from the top (-1, -2, ..), the registry and the
tables. Objects are numbered as they are made. Tables have no metamethods, and
there is memory and stack enough. The C functions there are, `φ`, are a
parameter, and so is what it means to call one.

`L.above ys` is `L` with `ys` pushed: the lemmas say what each call does to
such a state, so that a function is followed from the stack it was entered
with.
-/

namespace Artorias

/-- A value of Lua, by what it is equal to: tables, threads and userdata are numbers, one for
each object. -/
inductive LuaObj (φ : Type) where
  | nil
  | integer (i : Int)
  | string (s : String)
  | lightuserdata (p : Option Addr)
  | userdata (u : Addr)
  | table (t : Nat)
  | thread (T : Nat)
  | cfunction (f : φ)
  /-- booleans, floats, functions of Lua -/
  | other (x : Nat)
deriving Repr, DecidableEq

namespace LuaObj

variable {φ : Type}

/-- `lua_touserdata` -/
def toUserdata : LuaObj φ → Option Addr
  | .lightuserdata p => p
  | .userdata u => some u
  | _ => none

/-- `lua_tointeger`, of what has been pushed as an integer -/
def toInteger : LuaObj φ → Int
  | .integer i => i
  | _ => 0

end LuaObj

structure LuaState (φ : Type) where
  /-- from the bottom -/
  stack : List (LuaObj φ)
  /-- the thread that runs -/
  thread : Nat
  tables : Nat → LuaObj φ → LuaObj φ
  registry : Nat
  /-- the next number -/
  next : Nat

/-- An error leaves its message, and what has been done so far. -/
abbrev ApiRun (φ α : Type) := Except (LuaObj φ × LuaState φ) α

@[simp] theorem luaBind_ok {φ α β : Type} (a : α) (f : α → ApiRun φ β) :
    ((Except.ok a : ApiRun φ α) >>= f) = f a := rfl

/-- `LUA_REGISTRYINDEX` -/
def luaRegistryindex : Int := -1001000

namespace LuaState

variable {φ : Type}

/-! ## The stack -/

def withStack (L : LuaState φ) (xs : List (LuaObj φ)) : LuaState φ := { L with stack := xs }

def push (L : LuaState φ) (v : LuaObj φ) : LuaState φ := L.withStack (L.stack ++ [v])

/-- `lua_gettop` -/
def gettop (L : LuaState φ) : Nat := L.stack.length

/-- `lua_pop` -/
def pop (L : LuaState φ) (n : Nat) : LuaState φ :=
  L.withStack (L.stack.take (L.stack.length - n))

/-- The value at an index. -/
def index (L : LuaState φ) (i : Int) : LuaObj φ :=
  if i = luaRegistryindex then .table L.registry
  else if 0 < i then L.stack.getD (i.toNat - 1) .nil
  else L.stack.reverse.getD ((-i).toNat - 1) .nil

/-- `lua_pushvalue` -/
def pushvalue (L : LuaState φ) (i : Int) : LuaState φ := L.push (L.index i)

/-- `lua_pushstring`; `cstr` is what is at a `const char *`. -/
def pushstring (L : LuaState φ) (cstr : Addr → String) (p : Option Addr) : LuaState φ :=
  L.push (match p with
    | none => .nil
    | some p => .string (cstr p))

/-- `lua_pushthread` -/
def pushthread (L : LuaState φ) : LuaState φ := L.push (.thread L.thread)

/-- `lua_error` -/
def error {α : Type} (L : LuaState φ) : ApiRun φ α := .error (L.index (-1), L)

/-- `L` with `ys` pushed. -/
def above (L : LuaState φ) (ys : List (LuaObj φ)) : LuaState φ := L.withStack (L.stack ++ ys)

theorem above_nil (L : LuaState φ) : L.above [] = L := by
  rw [above, List.append_nil]
  rfl

@[simp] theorem above_above (L : LuaState φ) (xs ys : List (LuaObj φ)) :
    (L.above xs).above ys = L.above (xs ++ ys) :=
  congrArg L.withStack (List.append_assoc ..)

theorem push_eq (L : LuaState φ) (v : LuaObj φ) : L.push v = L.above [v] := rfl

@[simp] theorem above_push (L : LuaState φ) (ys : List (LuaObj φ)) (v : LuaObj φ) :
    (L.above ys).push v = L.above (ys ++ [v]) := by rw [push_eq, above_above]

theorem above_pop (L : LuaState φ) (ys zs : List (LuaObj φ)) {n : Nat} (hn : n = zs.length) :
    (L.above (ys ++ zs)).pop n = L.above ys := by
  have hlen : (L.stack ++ (ys ++ zs)).length - n = (L.stack ++ ys).length := by
    simp only [List.length_append]
    omega
  simp only [above, pop, withStack, hlen]
  rw [← List.append_assoc, List.take_left]

theorem above_index (L : LuaState φ) (ys : List (LuaObj φ)) {i : Int} (h0 : 0 < i)
    (hi : i ≤ L.gettop) : (L.above ys).index i = L.index i := by
  have hreg : i ≠ luaRegistryindex := by
    unfold luaRegistryindex
    omega
  have hlt : i.toNat - 1 < L.stack.length := by
    rw [gettop] at hi
    omega
  rw [index, index, if_neg hreg, if_neg hreg, if_pos h0, if_pos h0, above,
    withStack, List.getD_append _ _ _ _ hlt]

/-- The value that has been pushed after `xs`, by its index from the bottom. -/
theorem above_index_new (L : LuaState φ) (xs ys : List (LuaObj φ)) (v : LuaObj φ) {i : Int}
    (hi : i = L.gettop + xs.length + 1) : (L.above (xs ++ v :: ys)).index i = v := by
  have hreg : i ≠ luaRegistryindex := by
    unfold luaRegistryindex
    omega
  have hlen : i.toNat - 1 = (L.stack ++ xs).length := by
    rw [gettop] at hi
    rw [List.length_append]
    omega
  rw [index, if_neg hreg, if_pos (by omega), hlen, above, withStack, ← List.append_assoc,
    List.getD_append_right _ _ _ _ (Nat.le_refl _), Nat.sub_self, List.getD_cons_zero]

/-- The value below which there are `zs`, by its index from the top. -/
theorem above_index_neg (L : LuaState φ) (ys zs : List (LuaObj φ)) (v : LuaObj φ) {i : Int}
    (hi : i = -(zs.length + 1 : Nat)) (hreg : luaRegistryindex < i) :
    (L.above (ys ++ v :: zs)).index i = v := by
  have hplace : (-i).toNat - 1 = zs.reverse.length := by
    rw [List.length_reverse]
    omega
  rw [index, if_neg (Int.ne_of_gt hreg), if_neg (by omega), hplace, above, withStack,
    ← List.append_assoc, List.reverse_append, List.reverse_cons, List.append_assoc,
    List.getD_append_right _ _ _ _ (Nat.le_refl _), Nat.sub_self]
  rfl

@[simp] theorem above_index_top (L : LuaState φ) (ys : List (LuaObj φ)) (v : LuaObj φ) :
    (L.above (ys ++ [v])).index (-1) = v :=
  above_index_neg L ys [] v rfl (by decide)

@[simp] theorem above_index_second (L : LuaState φ) (ys : List (LuaObj φ)) (u v : LuaObj φ) :
    (L.above (ys ++ [u, v])).index (-2) = u :=
  above_index_neg L ys [v] u rfl (by decide)

theorem index_of_neg (L : LuaState φ) {i : Int} (hreg : luaRegistryindex < i) (h0 : i < 0)
    (hi : -i ≤ L.gettop) : L.index (L.gettop + i + 1) = L.index i := by
  rw [gettop] at hi ⊢
  have hlt : (-i).toNat - 1 < L.stack.length := by omega
  have hplace :
      L.stack.length - 1 - ((-i).toNat - 1) = ((L.stack.length : Int) + i + 1).toNat - 1 := by
    omega
  rw [index, if_neg (by unfold luaRegistryindex; omega), if_pos (by omega), index,
    if_neg (Int.ne_of_gt hreg), if_neg (by omega), List.getD_eq_getElem?_getD,
      List.getD_eq_getElem?_getD,
    List.getElem?_reverse hlt, hplace]

theorem foldl_push {ι : Type} (f : ι → LuaObj φ) (xs : List ι) (L : LuaState φ) :
    xs.foldl (fun L x => L.push (f x)) L = L.above (xs.map f) := by
  induction xs generalizing L with
  | nil => exact L.above_nil.symm
  | cons x xs ih =>
      rw [List.foldl_cons, ih, push_eq, above_above, List.map_cons, List.singleton_append]

@[simp] theorem index_registry (L : LuaState φ) : L.index luaRegistryindex = .table L.registry :=
  if_pos rfl

/-! ## Tables -/

/-- An empty table has been made. -/
def addTable (L : LuaState φ) : LuaState φ :=
  { L with tables := Function.update L.tables L.next fun _ => .nil, next := L.next + 1 }

def addThread (L : LuaState φ) : LuaState φ := { L with next := L.next + 1 }

/-- `lua_newtable` -/
def newtable (L : LuaState φ) : LuaState φ := L.addTable.push (.table L.next)

/-- `lua_newthread` -/
def newthread (L : LuaState φ) : LuaState φ := L.addThread.push (.thread L.next)

theorem above_newtable (L : LuaState φ) (ys : List (LuaObj φ)) :
    (L.above ys).newtable = L.addTable.above (ys ++ [.table L.next]) :=
  above_push L.addTable ys _

theorem above_newthread (L : LuaState φ) (ys : List (LuaObj φ)) :
    (L.above ys).newthread = L.addThread.above (ys ++ [.thread L.next]) :=
  above_push L.addThread ys _

/-- What is in a table. -/
def contents (L : LuaState φ) : LuaObj φ → Option (LuaObj φ → LuaObj φ)
  | .table t => some (L.tables t)
  | _ => none

/-- `t[k]`, `t` being the value at index `i` and `k` on the top, instead of `k`:
`lua_gettable` -/
def gettable (L : LuaState φ) (i : Int) : ApiRun φ (LuaState φ) :=
  match L.index i with
  | .table t => .ok ((L.pop 1).push (L.tables t (L.index (-1))))
  | _ => (L.push (.string "attempt to index a value")).error

/-- `luaL_getmetatable` -/
def getmetatable (L : LuaState φ) (tname : String) : LuaState φ :=
  L.push (L.tables L.registry (.string tname))

theorem gettable_eq (L : LuaState φ) (ys : List (LuaObj φ)) {k : LuaObj φ} {i : Int} {t : Nat}
    (ht : (L.above (ys ++ [k])).index i = .table t) :
    (L.above (ys ++ [k])).gettable i = .ok (L.above (ys ++ [L.tables t k])) := by
  have hpop : (L.above (ys ++ [k])).pop 1 = L.above ys := above_pop L ys [k] rfl
  rw [gettable, ht]
  simp only [above_index_top, hpop, above_push]
  rfl

/-- A lookup changes nothing but the stack, so it keeps whatever the stack does not bear on,
with an error or without. -/
theorem gettable_keeps {P : LuaState φ → Prop} (hstack : ∀ L xs, P L → P (L.withStack xs))
    {L : LuaState φ} (h : P L) (i : Int) : Meets (L.gettable i) P fun e => P e.2 := by
  rw [gettable]
  split
  · exact hstack _ _ (hstack _ _ h)
  · exact hstack _ _ h

section
variable [DecidableEq φ]

def write (L : LuaState φ) (t : Nat) (k v : LuaObj φ) : LuaState φ :=
  { L with tables := Function.update L.tables t (Function.update (L.tables t) k v) }

/-- `t[k] = v`, `k` and `v` being on the top: `lua_settable` -/
def settable (L : LuaState φ) (i : Int) : ApiRun φ (LuaState φ) :=
  match L.index i with
  | .table t =>
      if L.index (-2) = .nil then (L.push (.string "index is nil")).error
      else .ok ((L.pop 2).write t (L.index (-2)) (L.index (-1)))
  | _ => (L.push (.string "attempt to index a value")).error

/-- `luaL_newmetatable` -/
def newmetatable (L : LuaState φ) (tname : String) : LuaState φ :=
  if L.tables L.registry (.string tname) ≠ .nil then L.getmetatable tname
  else
    (L.newtable.write L.next (.string "__name") (.string tname)).write L.registry (.string tname)
      (.table L.next)

theorem settable_eq (L : LuaState φ) (ys : List (LuaObj φ)) {k v : LuaObj φ} {i : Int} {t : Nat}
    (ht : (L.above (ys ++ [k, v])).index i = .table t) (hk : k ≠ .nil) :
    (L.above (ys ++ [k, v])).settable i = .ok ((L.write t k v).above ys) := by
  have htop : (L.above (ys ++ [k, v])).index (-1) = v := by
    have h := above_index_top L (ys ++ [k]) v
    rwa [List.append_assoc] at h
  have hpop : (L.above (ys ++ [k, v])).pop 2 = L.above ys := above_pop L ys [k, v] rfl
  rw [settable, ht]
  simp only [above_index_second, if_neg hk, htop, hpop]
  rfl

theorem write_self (L : LuaState φ) (t : Nat) (k v : LuaObj φ) :
    (L.write t k v).tables t = Function.update (L.tables t) k v :=
  Function.update_self ..

theorem write_of_ne (L : LuaState φ) {t u : Nat} (hu : u ≠ t) (k v : LuaObj φ) :
    (L.write t k v).tables u = L.tables u :=
  Function.update_of_ne hu _ _

theorem settable_cases (L : LuaState φ) {k v x : LuaObj φ} {i : Int}
    (hx : (L.above [k, v]).index i = x) : Meets ((L.above [k, v]).settable i)
      (fun L' => ∃ t, x = .table t ∧ k ≠ .nil ∧ L' = L.write t k v)
      fun e => ∃ xs, e.2 = L.withStack xs := by
  have hsecond : (L.above [k, v]).index (-2) = k := above_index_second L [] k v
  cases x with
  | table t =>
      by_cases hk : k = .nil
      · rw [settable, hx]
        dsimp only
        rw [if_pos (hsecond.trans hk)]
        exact ⟨_, rfl⟩
      · rw [show [k, v] = [] ++ [k, v] from rfl, settable_eq L [] hx hk, above_nil]
        exact ⟨t, rfl, hk, rfl⟩
  | _ =>
      rw [settable, hx]
      exact ⟨_, rfl⟩

/-- The keys and values are written into the table `t`, one after the other. -/
def writes (L : LuaState φ) (t : Nat) : List (LuaObj φ × LuaObj φ) → LuaState φ
  | [] => L
  | (k, v) :: kvs => (L.write t k v).writes t kvs

theorem writes_stack (L : LuaState φ) (t : Nat) (kvs : List (LuaObj φ × LuaObj φ))
    (xs : List (LuaObj φ)) :
    (L.withStack xs).writes t kvs = (L.writes t kvs).withStack xs := by
  induction kvs generalizing L with
  | nil => rfl
  | cons kv kvs ih => exact ih (L.write t kv.1 kv.2)

theorem writes_eq (L : LuaState φ) (t : Nat) (kvs : List (LuaObj φ × LuaObj φ)) :
    L.writes t kvs = { L with tables := (L.writes t kvs).tables } := by
  induction kvs generalizing L with
  | nil => rfl
  | cons kv kvs ih => exact ih (L.write t kv.1 kv.2)

theorem writes_of_ne (L : LuaState φ) {t u : Nat} (hu : u ≠ t) (kvs : List (LuaObj φ × LuaObj φ)) :
    (L.writes t kvs).tables u = L.tables u := by
  induction kvs generalizing L with
  | nil => rfl
  | cons kv kvs ih => exact (ih _).trans (L.write_of_ne hu _ _)

theorem writes_of_notMem (L : LuaState φ) (t : Nat) {k : LuaObj φ}
    {kvs : List (LuaObj φ × LuaObj φ)}
    (hk : k ∉ kvs.map Prod.fst) : (L.writes t kvs).tables t k = L.tables t k := by
  induction kvs generalizing L with
  | nil => rfl
  | cons kv kvs ih =>
      obtain ⟨hne, hk⟩ := not_or.mp (fun h => hk (List.mem_cons.mpr h))
      have hwrite : (L.write t kv.1 kv.2).tables t k = L.tables t k := by
        rw [write_self, Function.update_of_ne hne]
      exact (ih _ hk).trans hwrite

/-- If the keys that are written are distinct, each has in the end the value that was
written for it. -/
theorem writes_of_mem (L : LuaState φ) (t : Nat) {kvs : List (LuaObj φ × LuaObj φ)}
    (hnodup : (kvs.map Prod.fst).Nodup) {kv : LuaObj φ × LuaObj φ} (hkv : kv ∈ kvs) :
    (L.writes t kvs).tables t kv.1 = kv.2 := by
  induction kvs generalizing L with
  | nil => cases hkv
  | cons kv' kvs ih =>
      obtain ⟨hnew, hnodup⟩ := List.nodup_cons.mp hnodup
      rcases List.mem_cons.mp hkv with rfl | hkv
      · refine (writes_of_notMem _ t hnew).trans ?_
        rw [write_self, Function.update_self]
      · exact ih _ hnodup hkv

end

/-! ## Protected calls -/

/-- `xs` made `n` long. -/
def adjust (n : Nat) (xs : List (LuaObj φ)) : List (LuaObj φ) :=
  (xs ++ List.replicate n LuaObj.nil).take n

/-- `lua_pcall`, and whether it answers `LUA_OK`; `call` runs a C function, which
answers how many results it leaves. -/
def pcall (call : φ → LuaState φ → ApiRun φ (LuaState φ × Nat)) (L : LuaState φ)
    (nargs nresults : Nat) : LuaState φ × Bool :=
  let below := L.stack.take (L.stack.length - (nargs + 1))
  match L.stack.drop (L.stack.length - (nargs + 1)) with
  | .cfunction f :: args =>
      match call f (L.withStack args) with
      | .ok (L', n) =>
          let results := L'.stack.drop (L'.stack.length - n)
          (L'.withStack (below ++ adjust nresults results), true)
      | .error (msg, L') => (L'.withStack (below ++ [msg]), false)
  | _ => (L.withStack (below ++ [.string "attempt to call a value"]), false)

theorem adjust_length (xs : List (LuaObj φ)) : adjust xs.length xs = xs := List.take_left

/-- `lua_pcall` of a function that comes back: its results take the place of the function
and its arguments on the stack of the caller. -/
theorem pcall_eq {call : φ → LuaState φ → ApiRun φ (LuaState φ × Nat)} {L L' : LuaState φ} {f : φ}
    {args results : List (LuaObj φ)} {nargs nresults : Nat}
    (h : call f (L.withStack args) = .ok (L'.above results, nresults))
    (hargs : nargs = args.length) (hresults : nresults = results.length) :
    (L.above (.cfunction f :: args)).pcall call nargs nresults
      = (L'.withStack (L.stack ++ results), true) := by
  subst hargs hresults
  have hlen : (L.stack ++ .cfunction f :: args).length - (args.length + 1) = L.stack.length := by
    simp
  have hres : (L'.stack ++ results).length - results.length = L'.stack.length := by simp
  have hcall : call f ((L.withStack (L.stack ++ .cfunction f :: args)).withStack args)
      = .ok (L'.withStack (L'.stack ++ results), results.length) := h
  simp only [pcall, above, withStack] at hcall ⊢
  simp only [hlen, List.take_left, List.drop_left, hcall, hres, adjust_length]

/-- `lua_pcall` keeps whatever neither the function nor a change of the stack breaks, be
there an error or not. -/
theorem pcall_keeps {call : φ → LuaState φ → ApiRun φ (LuaState φ × Nat)} {P : LuaState φ → Prop}
    (hstack : ∀ L xs, P L → P (L.withStack xs)) {L : LuaState φ} {f : φ} {args : List (LuaObj φ)}
    {nargs : Nat} (nresults : Nat) (hargs : nargs = args.length)
    (h : Meets (call f (L.withStack args)) (fun r => P r.1) fun e => P e.2) :
    P ((L.above (.cfunction f :: args)).pcall call nargs nresults).1 := by
  subst hargs
  have hlen : (L.stack ++ .cfunction f :: args).length - (args.length + 1) = L.stack.length := by
    simp
  simp only [pcall, above, withStack, hlen, List.take_left, List.drop_left] at h ⊢
  split
  · rename_i hrun
    rw [hrun] at h
    exact hstack _ _ h
  · rename_i hrun
    rw [hrun] at h
    exact hstack _ _ h

end LuaState

end Artorias
