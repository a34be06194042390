import Mathlib.Data.List.Nodup
import Artorias.ThreadVarCalls

/-!
# Every thread has variables of its own

Whatever threads are made, and whatever is set, got and registered for them:
each thread that has a table has one that no other thread has
(`VarsRun.varsAt`). So setting variables of one thread leaves those of the
others, and `setThreadLocalVars_get_iff` says when what is got afterwards is
what has been set.
-/

namespace Artorias

open LuaState

/-- `w` has the threads by their `tid` and `v` has the tables of their
variables, which are all different. -/
structure VarsAt (L : LbindState) (w v : Nat) : Prop where
  tids : L.tables L.registry (.string lrkTidThreadTable) = .table w
  vars : L.tables L.registry (.string lrkThreadLocalVarTable) = .table v
  apart : w ≠ L.registry ∧ v ≠ L.registry ∧ w ≠ v
  old : L.registry < L.next ∧ w < L.next ∧ v < L.next
  own : ∀ T t, L.tables v (.thread T) = .table t → t ≠ L.registry ∧ t ≠ v ∧ t < L.next
  sole : ∀ T T' t, L.tables v (.thread T) = .table t → L.tables v (.thread T') = .table t → T = T'

/-- The two tables stay where they are, and no thread gets another table of
variables; they may be lost, `v` being weak. -/
structure LeavesVars (L L' : LbindState) (v : Nat) : Prop where
  registry : L'.registry = L.registry
  next : L.next ≤ L'.next
  names : ∀ s, s = lrkTidThreadTable ∨ s = lrkThreadLocalVarTable →
    L'.tables L.registry (.string s) = L.tables L.registry (.string s)
  threads : ∀ T t, L'.tables v (.thread T) = .table t → L.tables v (.thread T) = .table t

namespace LeavesVars

variable {L L' : LbindState} {w v : Nat}

theorem varsAt (h' : LeavesVars L L' v) (h : VarsAt L w v) : VarsAt L' w v := by
  obtain ⟨hreg, hnext, hnames, hthreads⟩ := h'
  refine ⟨?_, ?_, hreg ▸ h.apart, ?_, ?_, ?_⟩
  · rw [hreg, hnames _ (.inl rfl)]
    exact h.tids
  · rw [hreg, hnames _ (.inr rfl)]
    exact h.vars
  · obtain ⟨h1, h2, h3⟩ := h.old
    rw [hreg]
    exact ⟨Nat.lt_of_lt_of_le h1 hnext, Nat.lt_of_lt_of_le h2 hnext, Nat.lt_of_lt_of_le h3 hnext⟩
  · intro T t ht
    obtain ⟨h1, h2, h3⟩ := h.own T t (hthreads T t ht)
    exact ⟨hreg ▸ h1, h2, Nat.lt_of_lt_of_le h3 hnext⟩
  · intro T T' t ht ht'
    exact h.sole T T' t (hthreads T t ht) (hthreads T' t ht')

theorem write_string {t : Nat} {s : String} (x : LuaObj LbindFn)
    (hs : t = L.registry → s ≠ lrkTidThreadTable ∧ s ≠ lrkThreadLocalVarTable) :
    LeavesVars L (L.write t (.string s) x) v := by
  refine ⟨rfl, Nat.le_refl _, fun r hr => ?_, fun T u hu => ?_⟩
  · by_cases ht : L.registry = t
    · subst ht
      have hne : r ≠ s := by
        rintro rfl
        exact hr.elim (hs rfl).1 (hs rfl).2
      rw [write_self, Function.update_of_ne fun he => hne (LuaObj.string.inj he)]
    · rw [write_of_ne L ht]
  · by_cases ht : v = t
    · subst ht
      rwa [write_self, Function.update_of_ne fun he => by cases he] at hu
    · rwa [write_of_ne L ht] at hu

theorem write_of_ne {t : Nat} (hreg : t ≠ L.registry) (hv : t ≠ v) (k x : LuaObj LbindFn) :
    LeavesVars L (L.write t k x) v := by
  refine ⟨rfl, Nat.le_refl _, fun r _ => ?_, fun T u hu => ?_⟩
  · rw [LuaState.write_of_ne L hreg.symm]
  · rwa [LuaState.write_of_ne L hv.symm] at hu

end LeavesVars

namespace VarsAt

variable {L : LbindState} {w v : Nat}

theorem withStack (h : VarsAt L w v) (xs : List (LuaObj LbindFn)) : VarsAt (L.withStack xs) w v :=
  ⟨h.tids, h.vars, h.apart, h.old, h.own, h.sole⟩

theorem writes (h : VarsAt L w v) {t : Nat} {kvs : List (LuaObj LbindFn × LuaObj LbindFn)}
    (hkvs : ∀ kv ∈ kvs, ∃ s, kv.1 = .string s
      ∧ (t = L.registry → s ≠ lrkTidThreadTable ∧ s ≠ lrkThreadLocalVarTable)) :
    VarsAt (L.writes t kvs) w v := by
  induction kvs generalizing L with
  | nil => exact h
  | cons kv kvs ih =>
      obtain ⟨k, x⟩ := kv
      obtain ⟨s, rfl, hs⟩ := hkvs _ (.head _)
      have hwrite : VarsAt (L.write t (.string s) x) w v := (LeavesVars.write_string x hs).varsAt h
      exact ih hwrite fun kv hkv => hkvs kv (.tail _ hkv)

theorem addTable (h : VarsAt L w v) : VarsAt L.addTable w v := by
  have hkeep : ∀ t, t < L.next → L.addTable.tables t = L.tables t := fun t ht =>
    Function.update_of_ne (Nat.ne_of_lt ht) _ _
  have hleaves : LeavesVars L L.addTable v := by
    refine ⟨rfl, Nat.le_succ _, fun s _ => ?_, fun T t ht => ?_⟩
    · rw [hkeep _ h.old.1]
    · rwa [hkeep _ h.old.2.2] at ht
  exact hleaves.varsAt h

theorem addThread (h : VarsAt L w v) : VarsAt L.addThread w v := by
  have hleaves : LeavesVars L L.addThread v :=
    ⟨rfl, Nat.le_succ _, fun _ _ => rfl, fun _ _ ht => ht⟩
  exact hleaves.varsAt h

/-- A thread is given a table that no thread has, and the tables stay different. -/
theorem give (h : VarsAt L w v) (T : Nat) {t : Nat} (hreg : t ≠ L.registry) (hv : t ≠ v)
    (hold : t < L.next) (hnew : ∀ T', L.tables v (.thread T') ≠ .table t) :
    VarsAt (L.write v (.thread T) (.table t)) w v := by
  have hentry : ∀ T', (L.write v (.thread T) (.table t)).tables v (.thread T')
      = if T' = T then .table t else L.tables v (.thread T') := by
    intro T'
    rw [write_self]
    by_cases hT : T' = T
    · rw [hT, Function.update_self, if_pos rfl]
    · rw [Function.update_of_ne fun he => hT (LuaObj.thread.inj he), if_neg hT]
  have hregistry : (L.write v (.thread T) (.table t)).tables L.registry = L.tables L.registry :=
    LuaState.write_of_ne L h.apart.2.1.symm _ _
  refine ⟨?_, ?_, h.apart, h.old, fun T' u hu => ?_, fun T' T'' u hu hu' => ?_⟩
  · exact (congrFun hregistry _).trans h.tids
  · exact (congrFun hregistry _).trans h.vars
  · rw [hentry] at hu
    by_cases hT : T' = T
    · rw [if_pos hT, LuaObj.table.injEq] at hu
      exact hu ▸ ⟨hreg, hv, hold⟩
    · rw [if_neg hT] at hu
      exact h.own T' u hu
  · rw [hentry] at hu hu'
    by_cases hT : T' = T
    · rw [if_pos hT, LuaObj.table.injEq] at hu
      subst hu
      by_cases hT' : T'' = T
      · rw [hT, hT']
      · rw [if_neg hT'] at hu'
        exact absurd hu' (hnew T'')
    · rw [if_neg hT] at hu
      by_cases hT' : T'' = T
      · rw [if_pos hT', LuaObj.table.injEq] at hu'
        subst hu'
        exact absurd hu (hnew T')
      · rw [if_neg hT'] at hu'
        exact h.sole T' T'' u hu hu'

end VarsAt

/-! ## The calls -/

section
variable (cstr : Addr → String) {P : LbindState → Prop}
  (hstack : ∀ L xs, P L → P (L.withStack xs))

include hstack

theorem lbindCheckmetatable_keeps {L : LbindState} (h : P L) (tname emsg : String) :
    Meets (lbindCheckmetatable L tname emsg) P fun e => P e.2 := by
  rw [lbindCheckmetatable]
  split
  · exact hstack _ _ (hstack _ _ h)
  · exact hstack _ _ h

theorem getVarsLoop_keeps (n k : Nat) {L : LbindState} (h : P L) :
    Meets (getVarsLoop cstr n k L) P fun e => P e.2 := by
  induction k generalizing L with
  | zero => exact h
  | succ k ih => exact (gettable_keeps hstack (hstack _ _ h) _).bind fun L' h' => ih h'

theorem lcfGetThreadLocalVars_keeps {L : LbindState} (h : P L) :
    Meets (lcfGetThreadLocalVars cstr L) (fun r => P r.1) fun e => P e.2 := by
  rw [lcfGetThreadLocalVars]
  refine (lbindCheckmetatable_keeps hstack h _ _).bind fun L1 h1 => ?_
  refine (gettable_keeps hstack (hstack _ _ h1) _).bind fun L2 h2 => ?_
  exact (getVarsLoop_keeps cstr hstack _ _ h2).bind fun L3 h3 => h3

/-- The loop of `lcf_set_va_list` keeps what writing into the table keeps, be there an error
or not; if `x` is no table, it writes nothing. -/
theorem setVarsLoop_keeps {tidx : Int} {x : LuaObj LbindFn}
    (hwrite : ∀ L t s v, x = .table t → P L → P (L.write t (.string s) v)) (k i : Nat)
    {L : LbindState} (hx : ∀ ys, (L.above ys).index tidx = x) (h : P L) :
    Meets (setVarsLoop cstr tidx k i L) P fun e => P e.2 := by
  induction k generalizing i L with
  | zero => exact h
  | succ k ih =>
      obtain ⟨key, val, hpush, hkey⟩ : ∃ key val,
          (L.pushstring cstr (L.index (i * 2)).toUserdata).pushvalue (i * 2 + 1)
            = L.above [key, val]
            ∧ (key ≠ .nil → ∃ s, key = .string s) := by
        refine ⟨_, _, above_push L [_] _, fun hkey => ?_⟩
        cases hfield : (L.index (i * 2)).toUserdata with
        | none =>
            rw [hfield] at hkey
            exact absurd rfl hkey
        | some p => exact ⟨_, rfl⟩
      rw [setVarsLoop, hpush]
      refine ((settable_cases L (hx _)).imp_error ?_).bind ?_
      · rintro e ⟨xs, he⟩
        rw [he]
        exact hstack _ _ h
      · rintro L' ⟨t, hxt, hk, rfl⟩
        obtain ⟨s, rfl⟩ := hkey hk
        exact ih (i + 1) hx (hwrite L t s val hxt h)

theorem popErrorMsg_keeps {r : LbindState × Bool} (h : P r.1) : P (popErrorMsg r).1 := by
  rw [popErrorMsg]
  split
  · exact h
  · exact hstack _ _ h

end

namespace VarsAt

variable (cstr : Addr → String) {L : LbindState} {w v : Nat}

theorem popErrorMsg {r : LbindState × Bool} (h : VarsAt r.1 w v) :
    VarsAt (popErrorMsg r).1 w v :=
  popErrorMsg_keeps (P := fun L => VarsAt L w v) (fun _ xs h => h.withStack xs) h

theorem get (h : VarsAt L w v) (fields : List Addr) :
    VarsAt (lbindGetThreadLocalVars cstr L fields).1 w v := by
  have hstack : ∀ (L : LbindState) xs, VarsAt L w v → VarsAt (L.withStack xs) w v :=
    fun _ xs h => h.withStack xs
  rw [lbindGetThreadLocalVars, foldl_push, push_eq, above_above, List.singleton_append]
  refine popErrorMsg (pcall_keeps hstack _ (List.length_map _).symm ?_)
  exact lcfGetThreadLocalVars_keeps cstr hstack (h.withStack _)

theorem lcfSet (h : VarsAt L w v) (htype : (L.index 1).toInteger ≠ lttypeRegistry) :
    Meets (lcfSetVaList cstr L) (fun r => VarsAt r.1 w v) fun e => VarsAt e.2 w v := by
  have hplace : ∀ ys, ((L.above [.table v, L.tables v (.thread L.thread)]).above ys).index
      (L.gettop + 2) = L.tables v (.thread L.thread) := by
    intro ys
    rw [above_above]
    exact above_index_new L [.table v] ys _ rfl
  have hloop := @setVarsLoop_keeps cstr (fun L' => L'.registry = L.registry ∧ VarsAt L' w v)
    (fun _ xs h => ⟨h.1, h.2.withStack xs⟩) _ _ ?_ (L.gettop / 2) 1 _ hplace ⟨rfl, h.withStack _⟩
  · rw [lcfSetVaList, if_neg htype, lbindCheckmetatable_eq h.vars, luaBind_ok]
    dsimp only
    rw [gettable_thread rfl, luaBind_ok]
    refine ((hloop.imp_error fun _ he => he.2).bind fun L' h' => ?_)
    exact h'.2
  · rintro L' t s x ht ⟨hreg, h'⟩
    refine ⟨hreg, (LeavesVars.write_string x fun he => ?_).varsAt h'⟩
    exact absurd (he.trans hreg) (h.own _ _ ht).1

/-- Setting variables keeps the two tables, whether the thread has one of its own or not. -/
theorem set (h : VarsAt L w v) {args : List (Addr × VaArg)} (hok : ∀ a ∈ args, a.2.Ok L) :
    VarsAt (lbindSetThreadLocalVars cstr L args).1 w v := by
  have hlength : 2 * args.length + 1 = (.integer lttypeThreadLocalVar
      :: flatArgs (args.map fun a => (a.1, a.2.value L))).length := by
    rw [List.length_cons, flatArgs_length, List.length_map]
  rw [lbindSetThreadLocalVars, lbindSetVaList, push_eq, push_eq, above_above, foldl_pushVaArg hok,
    List.append_assoc, List.singleton_append, List.singleton_append]
  refine popErrorMsg (pcall_keeps (P := fun L => VarsAt L w v) (fun _ xs h => h.withStack xs) 0
    hlength ?_)
  rw [lbindCall_setVaList]
  refine lcfSet cstr (h.withStack _) ?_
  change lttypeThreadLocalVar ≠ lttypeRegistry
  decide

/-- `lbind_reg_values` keeps the two tables, as long as it is called with other names than
theirs. -/
theorem reg (h : VarsAt L w v) {args : List (Addr × VaArg)} (hok : ∀ a ∈ args, a.2.Ok L)
    (hnames : ∀ a ∈ args, cstr a.1 ≠ lrkTidThreadTable ∧ cstr a.1 ≠ lrkThreadLocalVarTable) :
    VarsAt (lbindSetVaList cstr L lttypeRegistry args).1 w v := by
  rw [lbindRegValues_eq cstr hok]
  refine h.writes fun kv hkv => ?_
  obtain ⟨a, ha, rfl⟩ := List.mem_map.mp hkv
  exact ⟨_, rfl, fun _ => hnames a ha⟩

/-- A thread is made, with a table of its own that is empty, and it is found under its
number. -/
theorem lcfRef (h : VarsAt L w v) (i : Int) : ∃ L',
    lcfRefTidLthread (L.withStack [.integer i]) = .ok (L'.above [.thread L.next], 1)
      ∧ VarsAt L' w v ∧ HasVars L' L.next v (L.next + 1)
      ∧ L'.tables (L.next + 1) = (fun _ => .nil)
      ∧ L'.tables w = Function.update (L.tables w) (.integer (BitVec.ofInt 32 i).toNat)
        (.thread L.next) := by
  let E := (L.withStack [.integer i]).addThread
  let x : LuaObj LbindFn := .integer (BitVec.ofInt 32 i).toNat
  let th : LuaObj LbindFn := .thread L.next
  let F := (E.write w x th).addTable
  let G := F.write v th (.table (L.next + 1))
  have hE : VarsAt E w v := (h.withStack _).addThread
  have hF : VarsAt F w v :=
    ((LeavesVars.write_of_ne hE.apart.1 hE.apart.2.2 x th).varsAt hE).addTable
  have hset : (E.above [.table w, .table v, th, x, th]).settable (-5)
      = .ok ((E.write w x th).above [.table w, .table v, th]) :=
    settable_eq E [.table w, .table v, th]
      (above_index_neg E [] [.table v, th, x, th] (.table w) rfl (by decide)) (by simp [x])
  have hset' : (F.above [.table w, .table v, th, th, .table (L.next + 1)]).settable (-4)
      = .ok (G.above [.table w, .table v, th]) :=
    settable_eq F [.table w, .table v, th]
      (above_index_neg F [.table w] [th, th, .table (L.next + 1)] (.table v) rfl (by decide))
      (by simp [th])
  have hthread :
      (((L.withStack [.integer i]).above [.table w, .table v]).newthread.push x).pushvalue
      (-2) = E.above [.table w, .table v, th, x, th] := by
    rw [above_newthread, above_push, pushvalue, above_push]
    exact congrArg (fun y => E.above [.table w, .table v, th, x, y])
      (above_index_second E [.table w, .table v] th x)
  have htable : (((E.write w x th).above [.table w, .table v, th]).pushvalue (-1)).newtable
      = F.above [.table w, .table v, th, th, .table (L.next + 1)] := by
    rw [pushvalue, above_push, above_newtable]
    exact congrArg (fun y => F.above [.table w, .table v, th, y, .table (L.next + 1)])
      (above_index_top (E.write w x th) [.table w, .table v] th)
  have hold : ∀ t, t < L.next + 1 → F.tables t = (E.write w x th).tables t := fun t ht =>
    Function.update_of_ne (Nat.ne_of_lt ht) _ _
  have hnew : ∀ T', F.tables v (.thread T') ≠ .table (L.next + 1) := by
    intro T' hT'
    rw [hold v (by have := h.old; omega), LuaState.write_of_ne E hE.apart.2.2.symm] at hT'
    have := (h.own T' _ hT').2.2
    omega
  have hG : VarsAt G w v :=
    hF.give L.next (by have := h.old; change _ ≠ L.registry; omega) (by have := h.old; omega)
      (Nat.lt_succ_self _) hnew
  refine ⟨G.above [.table w, .table v], ?_, hG.withStack _, ⟨hG.vars, ?_⟩, ?_, ?_⟩
  · have hvars := @lbindCheckmetatable_eq ((L.withStack [.integer i]).above [.table w])
      lrkThreadLocalVarTable "thread local var table not exist" v h.vars
    rw [above_above] at hvars
    have hx : LuaObj.integer
        (((BitVec.ofInt 32 ((L.withStack [.integer i]).index (-1)).toInteger).toNat : Nat) : Int)
        = x := rfl
    rw [lcfRefTidLthread, lbindCheckmetatable_eq (h.withStack _).tids, luaBind_ok, hvars,
      luaBind_ok]
    dsimp only
    rw [hx]
    dsimp only [List.singleton_append]
    rw [hthread, hset, luaBind_ok, htable, hset', luaBind_ok, above_above]
    rfl
  · exact (congrFun (write_self F v th _) th).trans (Function.update_self ..)
  · refine (LuaState.write_of_ne F (by have := h.old; omega) _ _).trans ?_
    exact Function.update_self ..
  · refine (LuaState.write_of_ne F h.apart.2.2 _ _).trans ?_
    exact (hold w (by have := h.old; omega)).trans (write_self E w x th)

/-- `lbind_ref_tid_lthread` answers the new thread, which is the one of `tid` from
now on. -/
theorem ref (h : VarsAt L w v) (tid : BitVec 32) : ∃ L',
    lbindRefTidLthread cstr L tid = (L', some L.next) ∧ L'.stack = L.stack ∧ VarsAt L' w v
      ∧ HasVars L' L.next v (L.next + 1) ∧ L'.tables (L.next + 1) = (fun _ => .nil)
      ∧ L'.tables w = Function.update (L.tables w) (.integer tid.toNat) (.thread L.next) := by
  obtain ⟨L', hrun, hvars, hhas, hempty, htid⟩ := h.lcfRef tid.toNat
  rw [BitVec.ofInt_natCast, BitVec.ofNat_toNat, BitVec.setWidth_eq] at htid
  rw [← lbindCall_refTidLthread cstr] at hrun
  have hcall := pcall_eq hrun (List.length_singleton).symm rfl
  have hpop : (L'.withStack (L.stack ++ [.thread L.next])).pop 1 = L'.withStack L.stack :=
    (above_pop (L'.withStack L.stack) [] [.thread L.next] rfl).trans (above_nil _)
  have htop : (L'.withStack (L.stack ++ [.thread L.next])).index (-1) = .thread L.next :=
    above_index_top (L'.withStack L.stack) [] _
  refine ⟨L'.withStack L.stack, ?_, rfl, hvars.withStack _, hhas.withStack _, hempty, htid⟩
  rw [lbindRefTidLthread, push_eq, push_eq, above_above, List.singleton_append, hcall]
  dsimp only
  rw [hpop, htop]

theorem lcfUnref (h : VarsAt L w v) (tid : BitVec 32) :
    lcfUnrefTidLthread (L.withStack [.integer tid.toNat])
      = .ok (((L.write w (.integer tid.toNat) .nil).withStack
          [.integer tid.toNat, .table w]).above [],
        0) := by
  let i : LuaObj LbindFn := .integer tid.toNat
  have hi : BitVec.ofInt 32 ((L.withStack [i]).index (-1)).toInteger = tid := by
    change BitVec.ofInt 32 (tid.toNat : Int) = tid
    rw [BitVec.ofInt_natCast, BitVec.ofNat_toNat, BitVec.setWidth_eq]
  have hpush : (((L.withStack [i]).above [.table w]).push i).push .nil
      = (L.withStack [i]).above [.table w, i, .nil] := by
    rw [above_push, above_push]
    rfl
  have hset : ((L.withStack [i]).above [.table w, i, .nil]).settable (-3)
      = .ok (((L.withStack [i]).write w i .nil).above [.table w]) :=
    settable_eq (L.withStack [i]) [.table w]
      (above_index_neg (L.withStack [i]) [] [i, .nil] (.table w) rfl (by decide)) (by simp [i])
  rw [lcfUnrefTidLthread, hi, lbindCheckmetatable_eq (h.withStack _).tids, luaBind_ok]
  dsimp only
  rw [hpush, hset, luaBind_ok]
  rfl

/-- `lbind_unref_tid_lthread` takes the entry of `tid` out and changes nothing else. -/
theorem unref_eq (h : VarsAt L w v) (tid : BitVec 32) :
    (lbindUnrefTidLthread cstr L tid).1
      = (L.write w (.integer tid.toNat) .nil).withStack L.stack := by
  have hrun := h.lcfUnref tid
  rw [← lbindCall_unrefTidLthread cstr] at hrun
  have hcall := pcall_eq hrun (List.length_singleton).symm rfl
  rw [lbindUnrefTidLthread, push_eq, push_eq, above_above, List.singleton_append, hcall,
    Artorias.popErrorMsg, if_pos rfl, List.append_nil]
  rfl

theorem unref (h : VarsAt L w v) (tid : BitVec 32) :
    VarsAt (lbindUnrefTidLthread cstr L tid).1 w v := by
  rw [h.unref_eq]
  exact ((LeavesVars.write_of_ne h.apart.1 h.apart.2.2 _ _).varsAt h).withStack _

end VarsAt

/-! ## The start -/

/-- `luaL_newmetatable` has made a table for `tname`. -/
structure Registers (L L' : LbindState) (tname : String) : Prop where
  registry : L'.registry = L.registry
  next : L'.next = L.next + 1
  entry : ∀ s, L'.tables L'.registry (.string s)
    = if s = tname then .table L.next else L.tables L.registry (.string s)
  threads : ∀ T, L'.tables L.next (.thread T) = .nil
  others : ∀ t, t ≠ L.registry → t < L.next → L'.tables t = L.tables t

namespace Registers

variable {L L' : LbindState} {tname : String}

theorem old (h : Registers L L' tname) (hold : L.registry < L.next) : L'.registry < L'.next := by
  rw [h.registry, h.next]
  exact Nat.lt_succ_of_lt hold

theorem entry_of_ne (h : Registers L L' tname) {s : String} (hs : s ≠ tname) :
    L'.tables L'.registry (.string s) = L.tables L.registry (.string s) := by
  rw [h.entry, if_neg hs]

theorem write (h : Registers L L' tname) (hold : L.registry < L.next) (s : String)
    (x : LuaObj LbindFn) : Registers L (L'.write L.next (.string s) x) tname := by
  have hreg : L'.registry ≠ L.next := by
    rw [h.registry]
    exact Nat.ne_of_lt hold
  refine ⟨h.registry, h.next, fun r => ?_, fun T => ?_, fun t ht hlt => ?_⟩
  · exact (congrFun (LuaState.write_of_ne L' hreg _ _) _).trans (h.entry r)
  · rw [write_self, Function.update_of_ne (by simp)]
    exact h.threads T
  · rw [LuaState.write_of_ne L' (Nat.ne_of_lt hlt)]
    exact h.others t ht hlt

end Registers

theorem newmetatable_registers {L : LbindState} {tname : String} (hold : L.registry < L.next)
    (habsent : L.tables L.registry (.string tname) = .nil) (ys : List (LuaObj LbindFn)) :
    ∃ L', (L.above ys).newmetatable tname = L'.above (ys ++ [.table L.next])
      ∧ Registers L L' tname := by
  let N := L.addTable.write L.next (.string "__name") (.string tname)
  have hN : ∀ t, t ≠ L.next → N.tables t = L.tables t := fun t ht =>
    (LuaState.write_of_ne _ ht _ _).trans (Function.update_of_ne ht _ _)
  have hreg : L.registry ≠ L.next := Nat.ne_of_lt hold
  refine ⟨N.write L.registry (.string tname) (.table L.next), ?_, rfl, rfl, fun s => ?_,
    fun T => ?_,
    fun t ht hlt => ?_⟩
  · have hnil : ¬(L.above ys).tables (L.above ys).registry (.string tname) ≠ .nil :=
      not_not.mpr habsent
    rw [newmetatable, if_neg hnil, above_newtable]
    rfl
  · refine (congrFun (write_self N L.registry _ _) _).trans ?_
    by_cases hs : s = tname
    · rw [hs, Function.update_self, if_pos rfl]
    · rw [Function.update_of_ne fun he => hs (LuaObj.string.inj he), if_neg hs, hN _ hreg]
  · have hempty : L.addTable.tables L.next = fun _ => .nil := Function.update_self ..
    rw [LuaState.write_of_ne N hreg.symm, write_self, Function.update_of_ne (by simp), hempty]
  · rw [LuaState.write_of_ne N ht, hN t (Nat.ne_of_lt hlt)]

theorem newLWeakMetatable_registers {L : LbindState} {tname : String} (hold : L.registry < L.next)
    (habsent : L.tables L.registry (.string tname) = .nil) (ys : List (LuaObj LbindFn))
    (mode : String) : ∃ L', newLWeakMetatable (L.above ys) tname mode
      = .ok (L'.above (ys ++ [.table L.next])) ∧ Registers L L' tname := by
  obtain ⟨N, hnew, hN⟩ := newmetatable_registers hold habsent ys
  let t : LuaObj LbindFn := .table L.next
  let key : LuaObj LbindFn := .string "__mode"
  let M := N.write L.next key (.string mode)
  have hdup : (N.above (ys ++ [t])).pushvalue (-1) = N.above (ys ++ [t, t]) := by
    rw [pushvalue, above_index_top, above_push, List.append_assoc]
    rfl
  have hpush : ((N.above (ys ++ [t, t])).push key).push (.string mode)
      = N.above (ys ++ [t, t, key, .string mode]) := by
    rw [above_push, above_push, List.append_assoc, List.append_assoc]
    rfl
  have hset : (N.above (ys ++ [t, t, key, .string mode])).settable (-3)
      = .ok (M.above (ys ++ [t, t])) := by
    have hplace := above_index_neg N (ys ++ [t]) [key, .string mode] t (i := -3) rfl (by decide)
    have h := settable_eq N (ys ++ [t, t]) (k := key) (v := .string mode) (i := -3) (t := L.next)
    rw [List.append_assoc] at hplace h
    exact h hplace (by simp [key])
  have hpop : (M.above (ys ++ [t, t])).pop 1 = M.above (ys ++ [t]) := by
    have h := above_pop M (ys ++ [t]) [t] (n := 1) rfl
    rwa [List.append_assoc] at h
  refine ⟨M, ?_, hN.write hold _ _⟩
  rw [newLWeakMetatable, hnew, hdup, hpush, hset, luaBind_ok, hpop]

/-- `luaL_openlibs` has been called, and nothing of the worker has been
registered. -/
structure Opened (L : LbindState) : Prop where
  old : L.registry < L.next
  absent : ∀ s ∈ [lrkFdThreadTable, lrkLcodeChunkTable, lrkTidThreadTable, lrkThreadLocalVarTable,
    lrkBytesRefTable], L.tables L.registry (.string s) = .nil

/-- The last three tables that `lcf_init_state` registers are different and empty, so no
thread has anything yet. -/
theorem Registers.varsAt {L2 L3 L4 L5 : LbindState} (hold : L2.registry < L2.next)
    (r3 : Registers L2 L3 lrkTidThreadTable) (r4 : Registers L3 L4 lrkThreadLocalVarTable)
    (r5 : Registers L4 L5 lrkBytesRefTable) : VarsAt L5 L2.next L3.next := by
  have hreg : L5.registry = L2.registry := r5.registry.trans (r4.registry.trans r3.registry)
  have hnext3 := r3.next
  have hnext4 := r4.next
  have hnext5 := r5.next
  have hempty : ∀ T, L5.tables L3.next (.thread T) = .nil := by
    intro T
    have hother : L3.next ≠ L4.registry := by
      rw [r4.registry, r3.registry]
      omega
    rw [r5.others _ hother (by omega)]
    exact r4.threads T
  have hnone : ∀ T t, L5.tables L3.next (.thread T) ≠ .table t := by
    intro T t ht
    rw [hempty] at ht
    cases ht
  refine ⟨?_, ?_, ?_, ?_, fun T t ht => absurd ht (hnone T t),
    fun T _ t ht => absurd ht (hnone T t)⟩
  · rw [r5.entry_of_ne (by decide), r4.entry_of_ne (by decide), r3.entry, if_pos rfl]
  · rw [r5.entry_of_ne (by decide), r4.entry, if_pos rfl]
  · omega
  · omega

theorem Opened.lcfInit {L : LbindState} (h : Opened L) : ∃ L',
    lcfInitState (L.withStack []) = .ok (L', 0) ∧ VarsAt L' (L.next + 2) (L.next + 3) := by
  obtain ⟨L1, e1, r1⟩ := @newmetatable_registers (L.withStack []) lrkFdThreadTable h.old
    (h.absent _ (by decide)) []
  have o1 := r1.old h.old
  obtain ⟨L2, e2, r2⟩ := @newmetatable_registers L1 lrkLcodeChunkTable o1
    ((r1.entry_of_ne (by decide)).trans (h.absent _ (by decide))) [.table L.next]
  have o2 := r2.old o1
  have a2 : ∀ s ∈ [lrkTidThreadTable, lrkThreadLocalVarTable, lrkBytesRefTable],
      L2.tables L2.registry (.string s) = .nil := by
    intro s hs
    rw [r2.entry_of_ne (by rintro rfl; revert hs; decide),
      r1.entry_of_ne (by rintro rfl; revert hs; decide)]
    exact h.absent s (List.mem_cons_of_mem _ (List.mem_cons_of_mem _ hs))
  obtain ⟨L3, e3, r3⟩ := @newmetatable_registers L2 lrkTidThreadTable o2 (a2 _ (by decide))
    [.table L.next, .table L1.next]
  have o3 := r3.old o2
  obtain ⟨L4, e4, r4⟩ := @newLWeakMetatable_registers L3 lrkThreadLocalVarTable o3
    ((r3.entry_of_ne (by decide)).trans (a2 _ (by decide)))
    [.table L.next, .table L1.next, .table L2.next] "k"
  obtain ⟨L5, e5, r5⟩ := @newLWeakMetatable_registers L4 lrkBytesRefTable (r4.old o3)
    ((r4.entry_of_ne (by decide)).trans ((r3.entry_of_ne (by decide)).trans (a2 _ (by decide))))
    [.table L.next, .table L1.next, .table L2.next, .table L3.next] "k"
  have hw : L2.next = L.next + 2 := r2.next.trans (congrArg (· + 1) r1.next)
  have hv : L3.next = L.next + 3 := r3.next.trans (congrArg (· + 1) hw)
  have hvars : VarsAt L5 (L.next + 2) (L.next + 3) := hw ▸ hv ▸ r3.varsAt o2 r4 r5
  have hrun : lcfInitState (L.withStack []) = .ok (L5.above [.table L.next, .table L1.next,
      .table L2.next, .table L3.next, .table L4.next], 0) := by
    change (L.withStack []).newmetatable _ = L1.above [.table L.next] at e1
    change _ = L2.above [.table L.next, .table L1.next] at e2
    change _ = L3.above [.table L.next, .table L1.next, .table L2.next] at e3
    change _ = Except.ok
      (L4.above [.table L.next, .table L1.next, .table L2.next, .table L3.next]) at e4
    rw [lcfInitState, e1, e2, e3, e4, luaBind_ok, e5, luaBind_ok]
    rfl
  exact ⟨_, hrun, hvars.withStack _⟩

/-- `lbind_init_state` sets up the tables of the worker in a state that has been opened. -/
theorem Opened.init {L : LbindState} (h : Opened L) (cstr : Addr → String) :
    VarsAt (lbindInitState cstr L).1 (L.next + 2) (L.next + 3) := by
  obtain ⟨L', hrun, hvars⟩ := h.lcfInit
  rw [lbindInitState, push_eq]
  refine .popErrorMsg (pcall_keeps (P := fun L' => VarsAt L' (L.next + 2) (L.next + 3))
    (fun _ xs h => h.withStack xs) 0 rfl ?_)
  rw [lbindCall_initState, hrun]
  exact hvars

/-! ## Runs -/

/-- What the calls lead to, whatever Lua does in between: then another thread
may run, with other values on its stack, and there may be other objects. -/
inductive VarsRun (cstr : Addr → String) : LbindState → Prop where
  | init {L : LbindState} : Opened L → VarsRun cstr (lbindInitState cstr L).1
  | ref {L : LbindState} (tid : BitVec 32) : VarsRun cstr L →
      VarsRun cstr (lbindRefTidLthread cstr L tid).1
  | unref {L : LbindState} (tid : BitVec 32) : VarsRun cstr L →
      VarsRun cstr (lbindUnrefTidLthread cstr L tid).1
  | get {L : LbindState} (fields : List Addr) : VarsRun cstr L →
      VarsRun cstr (lbindGetThreadLocalVars cstr L fields).1
  | set {L : LbindState} {args : List (Addr × VaArg)} : VarsRun cstr L → (∀ a ∈ args, a.2.Ok L) →
      VarsRun cstr (lbindSetThreadLocalVars cstr L args).1
  | reg {L : LbindState} {args : List (Addr × VaArg)} : VarsRun cstr L → (∀ a ∈ args, a.2.Ok L) →
      (∀ a ∈ args, cstr a.1 ≠ lrkTidThreadTable ∧ cstr a.1 ≠ lrkThreadLocalVarTable) →
        VarsRun cstr (lbindSetVaList cstr L lttypeRegistry args).1
  | lua {L L' : LbindState} : VarsRun cstr L →
      (∀ v, L.tables L.registry (.string lrkThreadLocalVarTable) = .table v → LeavesVars L L' v) →
        VarsRun cstr L'

theorem VarsRun.varsAt {cstr : Addr → String} {L : LbindState} (h : VarsRun cstr L) :
    ∃ w v, VarsAt L w v := by
  induction h with
  | init hopen => exact ⟨_, _, hopen.init cstr⟩
  | ref tid _ ih =>
      obtain ⟨w, v, h⟩ := ih
      obtain ⟨L', hrun, -, hvars, -⟩ := h.ref cstr tid
      rw [hrun]
      exact ⟨w, v, hvars⟩
  | unref tid _ ih =>
      obtain ⟨w, v, h⟩ := ih
      exact ⟨w, v, h.unref cstr tid⟩
  | get fields _ ih =>
      obtain ⟨w, v, h⟩ := ih
      exact ⟨w, v, h.get cstr fields⟩
  | set _ hok ih =>
      obtain ⟨w, v, h⟩ := ih
      exact ⟨w, v, h.set cstr hok⟩
  | reg _ hok hnames ih =>
      obtain ⟨w, v, h⟩ := ih
      exact ⟨w, v, h.reg cstr hok hnames⟩
  | lua _ hlua ih =>
      obtain ⟨w, v, h⟩ := ih
      exact ⟨w, v, (hlua v h.vars).varsAt h⟩

/-! ## To set and then get -/

theorem threadVars_eq {L : LbindState} {v : Nat}
    (h : L.tables L.registry (.string lrkThreadLocalVarTable) = .table v) (T : Nat) :
    threadVars L T = L.contents (L.tables v (.thread T)) := by
  rw [threadVars, h]
  rfl

theorem threadVars_isSome {L : LbindState} {w v T : Nat} (h : VarsAt L w v)
    (hpresent : (threadVars L T).isSome) : ∃ t, HasVars L T v t := by
  rw [threadVars_eq h.vars] at hpresent
  cases ht : L.tables v (.thread T) with
  | table t => exact ⟨t, h.vars, ht⟩
  | _ =>
      rw [ht] at hpresent
      cases hpresent

/-- Writing variables of the running thread leaves those of the others, which are in other
tables. -/
theorem VarsAt.writes_others {L : LbindState} {w v t : Nat} (h : VarsAt L w v)
    (hhas : HasVars L L.thread v t) (kvs : List (LuaObj LbindFn × LuaObj LbindFn)) :
    HasVars (L.writes t kvs) L.thread v t
      ∧ ∀ T, T ≠ L.thread → threadVars (L.writes t kvs) T = threadVars L T := by
  obtain ⟨hreg, hv, -⟩ := h.own _ _ hhas.own
  have hregistry : (L.writes t kvs).registry = L.registry := by rw [writes_eq]
  have hvars : (L.writes t kvs).tables (L.writes t kvs).registry (.string lrkThreadLocalVarTable)
      = .table v := by
    rw [hregistry, writes_of_ne L hreg.symm, h.vars]
  have htable : (L.writes t kvs).tables v = L.tables v := writes_of_ne L hv.symm kvs
  refine ⟨⟨hvars, by rw [htable, hhas.own]⟩, fun T hT => ?_⟩
  rw [threadVars_eq hvars, threadVars_eq h.vars, htable]
  cases hu : L.tables v (.thread T) with
  | table u =>
      have hne : u ≠ t := by
        rintro rfl
        exact hT (h.sole T L.thread u hu hhas.own)
      exact congrArg some (writes_of_ne L hne kvs)
  | _ => rfl

/-- What is got is what has been set, on top of the stack as it was, and the
other threads have what they had. -/
def SetsThenGets (cstr : Addr → String) (L : LbindState) (args : List (Addr × VaArg)) : Prop :=
  let L₁ := (lbindSetThreadLocalVars cstr L args).1
  let L₂ := (lbindGetThreadLocalVars cstr L₁ (args.map Prod.fst)).1
  L₂.stack = L.stack ++ args.map (fun a => a.2.value L)
    ∧ ∀ T, T ≠ L.thread → threadVars L₂ T = threadVars L T

/-- After setting variables and getting them, the value of the first name is there as often
as there are names. -/
theorem set_get_first {cstr : Addr → String} {L : LbindState} {w v : Nat} (h : VarsAt L w v)
    (hpresent : (threadVars L L.thread).isSome) {args : List (Addr × VaArg)}
    (hnames : (args.map fun a => cstr a.1).Nodup) (hok : ∀ a ∈ args, a.2.Ok L)
    {L₁ L₂ : LbindState} (h₁ : (lbindSetThreadLocalVars cstr L args).1 = L₁)
    (h₂ : (lbindGetThreadLocalVars cstr L₁ (args.map Prod.fst)).1 = L₂) :
    (∃ x, L₂.stack = L.stack ++ args.map (fun _ => x) ∧ ∀ a ∈ args.head?, x = a.2.value L)
      ∧ ∀ T, T ≠ L.thread → threadVars L₂ T = threadVars L T := by
  obtain ⟨t, hhas⟩ := threadVars_isSome h hpresent
  let kvs : List (LuaObj LbindFn × LuaObj LbindFn) :=
    args.map fun a => (.string (cstr a.1), a.2.value L)
  obtain ⟨hhas', hothers⟩ := h.writes_others hhas kvs
  have hthread : (L.writes t kvs).thread = L.thread := by rw [writes_eq]
  have hstack : (L.writes t kvs).stack = L.stack := by rw [writes_eq]
  rw [lbindSetThreadLocalVars_eq cstr hhas hok] at h₁
  subst h₁
  rw [lbindGetThreadLocalVars_eq cstr (hthread.symm ▸ hhas')] at h₂
  subst h₂
  refine ⟨⟨(L.writes t kvs).tables t (.string (cstr ((args.map Prod.fst).headD 0))), ?_, ?_⟩,
    hothers⟩
  · rw [List.map_map]
    exact congrArg (· ++ _) hstack
  · intro a ha
    cases args with
    | nil => cases ha
    | cons b args =>
        obtain rfl : b = a := Option.some.inj ha
        have hkeys : kvs.map Prod.fst = ((b :: args).map fun a => cstr a.1).map LuaObj.string := by
          rw [List.map_map, List.map_map]
          rfl
        have hnodup : (kvs.map Prod.fst).Nodup := by
          rw [hkeys]
          exact List.Nodup.map (fun _ _ he => LuaObj.string.inj he) hnames
        exact writes_of_mem L t hnodup (.head _)

theorem VarsAt.setsThenGets_iff {cstr : Addr → String} {L : LbindState} {w v : Nat}
    (h : VarsAt L w v) (hpresent : (threadVars L L.thread).isSome) {args : List (Addr × VaArg)}
    (hnames : (args.map fun a => cstr a.1).Nodup) (hok : ∀ a ∈ args, a.2.Ok L) :
    SetsThenGets cstr L args ↔ ∀ a ∈ args, ∀ b ∈ args, a.2.value L = b.2.value L := by
  obtain ⟨⟨x, hstack, hfirst⟩, hothers⟩ := set_get_first h hpresent hnames hok rfl rfl
  rw [SetsThenGets, hstack, and_iff_left hothers, List.append_cancel_left_eq, List.map_inj_left]
  cases args with
  | nil => exact iff_of_true (fun a ha => by cases ha) fun a ha => by cases ha
  | cons first args =>
      rw [hfirst first rfl]
      constructor
      · intro hall a ha b hb
        exact (hall a ha).symm.trans (hall b hb)
      · intro hsame a ha
        exact hsame first (.head _) a ha

/-- Setting any variables of a thread and getting them leaves their values in order if all
the values are the same, as for one name, and only then: the getter looks up the first name
in every turn. -/
theorem setThreadLocalVars_get_iff {cstr : Addr → String} {L : LbindState} (hrun : VarsRun cstr L)
    (hpresent : (threadVars L L.thread).isSome) {args : List (Addr × VaArg)}
    (hnames : (args.map fun a => cstr a.1).Nodup) (hok : ∀ a ∈ args, a.2.Ok L) :
    SetsThenGets cstr L args ↔ ∀ a ∈ args, ∀ b ∈ args, a.2.value L = b.2.value L := by
  obtain ⟨w, v, h⟩ := hrun.varsAt
  exact h.setsThenGets_iff hpresent hnames hok

def openState : LbindState := ⟨[], 0, fun _ _ => .nil, 0, 1⟩

theorem openState_opened : Opened openState := ⟨by decide, fun _ _ => rfl⟩

/-- `LLK_RES_SOCK_TABLE` and `LLK_THREAD` -/
def llkNames (p : Addr) : String := if p = 100 then "as_llk_000" else "as_llk_001"

/-- The thread 6 has been made, and runs with an integer and a table on its
stack. -/
def oneThread : LbindState :=
  { (lbindRefTidLthread llkNames (lbindInitState llkNames openState).1 12).1 with
    thread := 6
    stack := [.integer 7, .table 8]
    next := 9 }

theorem oneThread_run : VarsRun llkNames oneThread := by
  refine .lua (.ref 12 (.init openState_opened)) fun v _ =>
    ⟨rfl, ?_, fun _ _ => rfl, fun _ _ ht => ht⟩
  decide

theorem oneThread_has : (threadVars oneThread oneThread.thread).isSome := rfl

theorem setThreadLocalVars_get_iff_same :
    SetsThenGets llkNames oneThread [(100, .stack (-2)), (101, .int 7)] := by
  have hok : ∀ a ∈ [((100 : Addr), VaArg.stack (-2)), (101, .int 7)], a.2.Ok oneThread := by
    simp [VaArg.Ok, luaRegistryindex, gettop, oneThread]
  exact (setThreadLocalVars_get_iff oneThread_run oneThread_has (by decide) hok).mpr (by decide)

/-- Two variables are set and got, and the value of the first name comes twice. -/
theorem setThreadLocalVars_get_first : ∃ L₂, VarsRun llkNames oneThread
    ∧ (lbindGetThreadLocalVars llkNames
        (lbindSetThreadLocalVars llkNames oneThread [(100, .stack (-1)), (101, .int 4)]).1
        [100, 101]).1 = L₂
    ∧ L₂.stack = [.integer 7, .table 8, .table 8, .table 8]
    ∧ ¬SetsThenGets llkNames oneThread [(100, .stack (-1)), (101, .int 4)] := by
  have hok : ∀ a ∈ [((100 : Addr), VaArg.stack (-1)), (101, .int 4)], a.2.Ok oneThread := by
    simp [VaArg.Ok, luaRegistryindex, gettop, oneThread]
  obtain ⟨w, v, h⟩ := oneThread_run.varsAt
  obtain ⟨⟨x, hstack, hx⟩, -⟩ :=
    @set_get_first llkNames oneThread w v h oneThread_has _ (by decide) hok _ _ rfl rfl
  have hfirst : x = .table 8 := hx _ rfl
  rw [hfirst] at hstack
  refine ⟨_, oneThread_run, rfl, hstack, fun hsets => ?_⟩
  have hsame :=
    (h.setsThenGets_iff oneThread_has (by decide) hok).mp hsets _ (.head _) _ (.tail _ (.head _))
  cases hsame

end Artorias
