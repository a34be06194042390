import Artorias.ThreadVars

/-!
# What becomes of the variables of a thread

`lbind_set_thread_local_vars` gives each of its names the value that goes with
it (`lbindSetThreadLocalVars_eq`), and the tables of the other threads are not
touched. `lbind_get_thread_local_vars` looks up its first name only
(`lbindGetThreadLocalVars_eq`).
-/

namespace Artorias

open LuaState

/-- The table of the variables of `T`, if it has one. -/
def threadVars (L : LbindState) (T : Nat) : Option (LuaObj LbindFn → LuaObj LbindFn) :=
  (L.contents (L.tables L.registry (.string lrkThreadLocalVarTable))).bind fun vars =>
    L.contents (vars (.thread T))

namespace VaArg

/-- An index is that of a value on the stack. -/
def Ok (L : LbindState) : VaArg → Prop
  | .stack idx => luaRegistryindex < idx ∧ idx ≠ 0 ∧ idx.natAbs ≤ L.gettop
  | .int _ | .ptr _ => True

def value (L : LbindState) : VaArg → LuaObj LbindFn
  | .int ival => .integer ival
  | .stack idx => L.index idx
  | .ptr pval => .lightuserdata pval

end VaArg

/-! ## The arguments on the stack -/

/-- Name, value, name, value, .. -/
def flatArgs (args : List (Addr × LuaObj LbindFn)) : List (LuaObj LbindFn) :=
  args.flatMap fun a => [.lightuserdata (some a.1), a.2]

theorem flatArgs_length (args : List (Addr × LuaObj LbindFn)) :
    (flatArgs args).length = 2 * args.length := by
  induction args with
  | nil => rfl
  | cons a args ih =>
      rw [flatArgs, List.flatMap_cons, List.length_append, ← flatArgs, ih, List.length_cons,
        List.length_cons, List.length_cons, List.length_nil]
      omega

/-- The values at negative indices are found although the stack has grown: they are counted
from the top as it was at the call. -/
theorem pushVaArg_eq {L : LbindState} (ys : List (LuaObj LbindFn)) {a : Addr × VaArg}
    (ha : a.2.Ok L) : pushVaArg L.gettop (L.above ys) a
      = L.above (ys ++ flatArgs [(a.1, a.2.value L)]) := by
  obtain ⟨field, arg⟩ := a
  have happend : ∀ v : LuaObj LbindFn, ys ++ [.lightuserdata (some field)] ++ [v]
      = ys ++ flatArgs [(field, v)] := fun v => List.append_assoc ..
  rw [pushVaArg, above_push]
  cases arg with
  | int ival =>
      dsimp only
      rw [above_push, happend]
      rfl
  | ptr pval =>
      dsimp only
      rw [above_push, happend]
      rfl
  | stack idx =>
      obtain ⟨hreg, h0, hle⟩ := ha
      have hindex : ∀ zs, (L.above zs).index (if idx < 0 then L.gettop + idx + 1 else idx)
          = L.index idx := by
        intro zs
        by_cases hneg : idx < 0
        · rw [if_pos hneg, above_index L zs (by omega) (by omega),
            index_of_neg L hreg hneg (by omega)]
        · rw [if_neg hneg, above_index L zs (by omega) (by omega)]
      dsimp only
      rw [pushvalue, hindex, above_push, happend]
      rfl

theorem foldl_pushVaArg {L : LbindState} {args : List (Addr × VaArg)} (hok : ∀ a ∈ args, a.2.Ok L)
    (ys : List (LuaObj LbindFn)) : args.foldl (pushVaArg L.gettop) (L.above ys)
      = L.above (ys ++ flatArgs (args.map fun a => (a.1, a.2.value L))) := by
  induction args generalizing ys with
  | nil => rw [List.map_nil, flatArgs, List.flatMap_nil, List.append_nil, List.foldl_nil]
  | cons a args ih =>
      rw [List.foldl_cons, pushVaArg_eq ys (hok a (.head _)),
        ih fun b hb => hok b (.tail _ hb), List.append_assoc]
      rfl

/-- The places from `i` on have `args`, whatever is pushed. -/
def ArgsAt (L : LbindState) : Nat → List (Addr × LuaObj LbindFn) → Prop
  | _, [] => True
  | i, a :: args =>
      (∀ ys, (L.above ys).index (i * 2) = .lightuserdata (some a.1)
        ∧ (L.above ys).index (i * 2 + 1) = a.2) ∧ ArgsAt L (i + 1) args

theorem ArgsAt.write {L : LbindState} {i : Nat} {args : List (Addr × LuaObj LbindFn)}
    (h : ArgsAt L i args) (t : Nat) (k v : LuaObj LbindFn) : ArgsAt (L.write t k v) i args := by
  induction args generalizing i with
  | nil => trivial
  | cons a args ih => exact ⟨h.1, ih h.2⟩

theorem argsAt_flatArgs {L : LbindState} (htop : L.gettop = 1)
    (done args : List (Addr × LuaObj LbindFn)) (zs : List (LuaObj LbindFn)) :
    ArgsAt (L.above (flatArgs (done ++ args) ++ zs)) (done.length + 1) args := by
  induction args generalizing done with
  | nil => trivial
  | cons a args ih =>
      refine ⟨fun ys => ?_, ?_⟩
      · have hflat : flatArgs (done ++ a :: args)
            = flatArgs done ++ .lightuserdata (some a.1) :: a.2 :: flatArgs args := by
          rw [flatArgs, List.flatMap_append, List.flatMap_cons]
          rfl
        have hlen := flatArgs_length done
        rw [above_above, hflat, List.append_assoc, List.append_assoc]
        constructor
        · exact above_index_new L _ _ _ (by omega)
        · have h := above_index_new L (flatArgs done ++ [.lightuserdata (some a.1)])
            (flatArgs args ++ zs ++ ys) a.2 (i := ((done.length + 1 : Nat) : Int) * 2 + 1)
            (by rw [List.length_append, List.length_singleton]; omega)
          simpa using h
      · have h := ih (done ++ [a])
        rwa [List.append_assoc, List.length_append] at h

/-! ## The loops -/

section
variable {cstr : Addr → String}

theorem setVarsLoop_eq {tidx : Int} {t : Nat} {args : List (Addr × LuaObj LbindFn)} {i : Nat}
    {L : LbindState} (hargs : ArgsAt L i args) (ht : ∀ ys, (L.above ys).index tidx = .table t) :
    setVarsLoop cstr tidx args.length i L
      = .ok (L.writes t (args.map fun a => (.string (cstr a.1), a.2))) := by
  induction args generalizing i L with
  | nil => rfl
  | cons a args ih =>
      obtain ⟨ha, hargs⟩ := hargs
      have hname := (ha []).1
      have hvalue := (ha [.string (cstr a.1)]).2
      rw [above_nil] at hname
      have hset : (L.above [.string (cstr a.1), a.2]).settable tidx
          = .ok (L.write t (.string (cstr a.1)) a.2) := by
        rw [← (L.write t (.string (cstr a.1)) a.2).above_nil]
        exact settable_eq L [] (ht _) fun h => by cases h
      have hpush : (L.above [.string (cstr a.1)]).pushvalue (i * 2 + 1)
          = L.above [.string (cstr a.1), a.2] := by
        rw [pushvalue, hvalue, above_push]
        rfl
      rw [List.length_cons, setVarsLoop, hname]
      simp only [LuaObj.toUserdata, pushstring, push_eq, hpush, hset, luaBind_ok]
      exact ih (hargs.write ..) ht

/-- Every turn of the loop looks up the name at index 1, whichever its turn is, so the
values are all that of the first name. -/
theorem getVarsLoop_eq {n t k : Nat} {field : Addr} {L : LbindState}
    (hname : ∀ ys, (L.above ys).index 1 = .lightuserdata (some field))
    (ht : ∀ ys, (L.above ys).index (n + 2) = .table t) : getVarsLoop cstr n k L
      = .ok (L.above (List.replicate k (L.tables t (.string (cstr field))))) := by
  induction k generalizing L with
  | zero => exact congrArg Except.ok L.above_nil.symm
  | succ k ih =>
      have hfield := hname []
      rw [above_nil] at hfield
      have hget := gettable_eq L [] (ht [.string (cstr field)])
      rw [List.nil_append, List.nil_append] at hget
      rw [getVarsLoop, hfield]
      simp only [LuaObj.toUserdata, pushstring, push_eq, hget, luaBind_ok]
      rw [ih (fun ys => by rw [above_above, hname]) fun ys => by rw [above_above, ht], above_above]
      rfl

theorem lbindCheckmetatable_eq {L : LbindState} {tname emsg : String} {t : Nat}
    (h : L.tables L.registry (.string tname) = .table t) :
    lbindCheckmetatable L tname emsg = .ok (L.above [.table t]) := by
  have hne : (LuaObj.table t : LuaObj LbindFn) ≠ .nil := fun h => by cases h
  rw [lbindCheckmetatable, getmetatable, h, push_eq]
  exact if_neg (by rw [← List.nil_append [LuaObj.table t], above_index_top]; exact hne)

theorem gettable_thread {L : LbindState} {v : Nat} {x : LuaObj LbindFn}
    (hx : L.tables v (.thread L.thread) = x) :
    (L.above [.table v]).pushthread.gettable (-2) = .ok (L.above [.table v, x]) := by
  have hget := gettable_eq L [.table v] (above_index_second L [] (.table v) (.thread L.thread))
  rw [hx] at hget
  rw [pushthread, above_push]
  exact hget

/-! ## The calls -/

/-- The table of `T`. -/
structure HasVars (L : LbindState) (T v t : Nat) : Prop where
  vars : L.tables L.registry (.string lrkThreadLocalVarTable) = .table v
  own : L.tables v (.thread T) = .table t

variable (cstr)

theorem HasVars.withStack {L : LbindState} {T v t : Nat} (h : HasVars L T v t)
    (xs : List (LuaObj LbindFn)) : HasVars (L.withStack xs) T v t := ⟨h.vars, h.own⟩

theorem lcfGetThreadLocalVars_eq {L : LbindState} {v t : Nat} (h : HasVars L L.thread v t)
    {fields : List Addr} (hstack : L.stack = fields.map fun field => .lightuserdata (some field)) :
    lcfGetThreadLocalVars cstr L = .ok ((L.above [.table v, .table t]).above
      (fields.map fun _ => L.tables t (.string (cstr (fields.headD 0)))), fields.length) := by
  have htop : L.gettop = fields.length := by rw [gettop, hstack, List.length_map]
  have hloop : getVarsLoop cstr L.gettop L.gettop (L.above [.table v, .table t])
      = .ok ((L.above [.table v, .table t]).above
          (fields.map fun _ => L.tables t (.string (cstr (fields.headD 0))))) := by
    rw [htop, List.map_const']
    cases fields with
    | nil => exact congrArg Except.ok (above_nil _).symm
    | cons field fields =>
        have hpos : (1 : Int) ≤ L.gettop := by
          rw [htop, List.length_cons]
          omega
        have hfirst : L.index 1 = .lightuserdata (some field) := by
          simp [index, luaRegistryindex, hstack]
        refine getVarsLoop_eq (fun ys => ?_) fun ys => ?_
        · rw [above_above, above_index L _ Int.one_pos hpos, hfirst]
          rfl
        · rw [above_above]
          exact above_index_new L [.table v] ys _ (by rw [htop, List.length_singleton]; rfl)
  rw [lcfGetThreadLocalVars]
  dsimp only
  rw [lbindCheckmetatable_eq h.vars, luaBind_ok, gettable_thread h.own, luaBind_ok, hloop, htop]
  rfl

/-- `lbind_get_thread_local_vars` leaves what the first name has, as often as there are
names. -/
theorem lbindGetThreadLocalVars_eq {L : LbindState} {v t : Nat} (h : HasVars L L.thread v t)
    (fields : List Addr) : lbindGetThreadLocalVars cstr L fields
      = (L.above (fields.map fun _ => L.tables t (.string (cstr (fields.headD 0)))), true) := by
  have hcall : lbindCall cstr .getThreadLocalVars
      (L.withStack (fields.map fun field => .lightuserdata (some field))) = _ :=
    lcfGetThreadLocalVars_eq cstr
      (h.withStack (fields.map fun field => .lightuserdata (some field))) rfl
  rw [lbindGetThreadLocalVars, foldl_push, push_eq, above_above, List.singleton_append,
    pcall_eq hcall (List.length_map _).symm (List.length_map _).symm]
  rfl

/-- The loop of `lcf_set_va_list` finds its arguments, whatever is pushed on them, and makes
one write for each. -/
theorem setVarsLoop_args {L : LbindState} {tidx ttype : Int} {t : Nat}
    (args : List (Addr × LuaObj LbindFn)) (zs : List (LuaObj LbindFn))
    (ht : ∀ ys, ((L.withStack [.integer ttype]).above (flatArgs args ++ zs ++ ys)).index tidx
      = .table t) :
    setVarsLoop cstr tidx args.length 1 ((L.withStack [.integer ttype]).above (flatArgs args ++ zs))
      = .ok (((L.withStack [.integer ttype]).above (flatArgs args ++ zs)).writes t
          (args.map fun a => (.string (cstr a.1), a.2))) := by
  refine setVarsLoop_eq (argsAt_flatArgs rfl [] args zs) fun ys => ?_
  rw [above_above, ht]

theorem lcfSetVaList_eq {L : LbindState} {v t : Nat} (h : HasVars L L.thread v t)
    (args : List (Addr × LuaObj LbindFn)) :
    lcfSetVaList cstr (L.withStack (.integer lttypeThreadLocalVar :: flatArgs args))
      = .ok ((L.withStack (.integer lttypeThreadLocalVar :: (flatArgs args
          ++ [.table v, .table t]))).writes t (args.map fun a => (.string (cstr a.1), a.2)),
            0) := by
  have hown := h.withStack (.integer lttypeThreadLocalVar :: flatArgs args)
  have htype : ((L.withStack (.integer lttypeThreadLocalVar :: flatArgs args)).index 1).toInteger
      = lttypeThreadLocalVar := rfl
  have hne : lttypeThreadLocalVar ≠ lttypeRegistry := by decide
  have htop : (L.withStack (.integer lttypeThreadLocalVar :: flatArgs args)).gettop
      = 2 * args.length + 1 := by
    rw [← flatArgs_length]
    rfl
  have hhalf : (2 * args.length + 1) / 2 = args.length := by omega
  have hloop := @setVarsLoop_args cstr L (((2 * args.length + 1 : Nat) : Int) + 2)
    lttypeThreadLocalVar t args [.table v, .table t] fun ys => by
      rw [List.append_assoc]
      have hlen := flatArgs_length args
      have h := above_index_new (L.withStack [.integer lttypeThreadLocalVar])
          (flatArgs args ++ [.table v])
        ys (.table t) (i := ((2 * args.length + 1 : Nat) : Int) + 2) (by
          rw [List.length_append, hlen, List.length_singleton]
          change _ = ((1 : Nat) : Int) + _ + 1
          omega)
      simpa using h
  rw [lcfSetVaList]
  dsimp only
  rw [htype, if_neg hne, lbindCheckmetatable_eq hown.vars, luaBind_ok, gettable_thread hown.own,
    luaBind_ok, htop, hhalf]
  exact (congrArg (· >>= fun L => .ok (L, 0)) hloop)

/-- For the registry `lcf_set_va_list` writes the values there. -/
theorem lcfSetVaList_registry_eq (L : LbindState) (args : List (Addr × LuaObj LbindFn)) :
    lcfSetVaList cstr (L.withStack (.integer lttypeRegistry :: flatArgs args))
      = .ok ((L.withStack (.integer lttypeRegistry :: flatArgs args)).writes L.registry
          (args.map fun a => (.string (cstr a.1), a.2)), 0) := by
  have htype : ((L.withStack (.integer lttypeRegistry :: flatArgs args)).index 1).toInteger
      = lttypeRegistry := rfl
  have hhalf :
      (L.withStack (.integer lttypeRegistry :: flatArgs args)).gettop / 2 = args.length := by
    change ((flatArgs args).length + 1) / 2 = _
    rw [flatArgs_length]
    omega
  have hloop :=
    @setVarsLoop_args cstr L luaRegistryindex lttypeRegistry L.registry args [] fun ys =>
    index_registry _
  rw [List.append_nil] at hloop
  rw [lcfSetVaList]
  dsimp only
  rw [htype, if_pos rfl, hhalf]
  exact congrArg (· >>= fun L => .ok (L, 0)) hloop

/-- The values of `args` are found and given to the function, which writes them, and the
stack is as before. -/
theorem lbindSetVaList_eq {L : LbindState} {ttype : Int} {args : List (Addr × VaArg)}
    (hok : ∀ a ∈ args, a.2.Ok L) {t : Nat} {xs : List (LuaObj LbindFn)}
    (hcall : lcfSetVaList cstr
        (L.withStack (.integer ttype :: flatArgs (args.map fun a => (a.1, a.2.value L))))
      = .ok ((L.withStack xs).writes t ((args.map fun a => (a.1, a.2.value L)).map
          fun a => (.string (cstr a.1), a.2)), 0)) :
    lbindSetVaList cstr L ttype args
      = (L.writes t (args.map fun a => (.string (cstr a.1), a.2.value L)), true) := by
  have hpairs : (args.map fun a => (a.1, a.2.value L)).map
      (fun a => ((.string (cstr a.1), a.2) : LuaObj LbindFn × LuaObj LbindFn))
        = args.map fun a => (.string (cstr a.1), a.2.value L) := List.map_map ..
  have hlength : 2 * args.length + 1
      = (.integer ttype :: flatArgs (args.map fun a => (a.1, a.2.value L))).length := by
    rw [List.length_cons, flatArgs_length, List.length_map]
  rw [← above_nil (writes _ _ _), hpairs,
    ← lbindCall_setVaList] at hcall
  rw [lbindSetVaList, push_eq, push_eq, above_above, foldl_pushVaArg hok, List.append_assoc,
    List.singleton_append, List.singleton_append, pcall_eq hcall hlength rfl,
    List.append_nil, writes_stack, writes_eq]
  rfl

/-- Setting variables of a thread that has a table gives each name its value in
that table. -/
theorem lbindSetThreadLocalVars_eq {L : LbindState} {v t : Nat} (h : HasVars L L.thread v t)
    {args : List (Addr × VaArg)} (hok : ∀ a ∈ args, a.2.Ok L) :
    lbindSetThreadLocalVars cstr L args
      = (L.writes t (args.map fun a => (.string (cstr a.1), a.2.value L)), true) :=
  lbindSetVaList_eq cstr hok (lcfSetVaList_eq cstr h _)

/-- `lbind_reg_values` gives each name its value in the registry. -/
theorem lbindRegValues_eq {L : LbindState} {args : List (Addr × VaArg)}
    (hok : ∀ a ∈ args, a.2.Ok L) : lbindSetVaList cstr L lttypeRegistry args
      = (L.writes L.registry (args.map fun a => (.string (cstr a.1), a.2.value L)), true) :=
  lbindSetVaList_eq cstr hok (lcfSetVaList_registry_eq cstr L _)

end

end Artorias
