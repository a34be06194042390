import Mathlib.Logic.Relation
import Artorias.SocketEvCalls

/-!
# Threads that wait for several sockets at once

Every thread that has called `ev_begin` has a table of sockets that nothing else
has (`SocksAt`), and a step of another thread leaves it (`LeavesSocks`). So
`ev_wait_socket`: whatever the other threads do in between, a thread that waits
gets the sockets of its own last `ev_begin` back.
-/

namespace Artorias

open LuaState

namespace SocketEv

/-! ## Tables that are the threads' own -/

section
variable {L L' : LbindState} {w v : Nat} {X : Option Nat}

/-- `t` has the variables of `T`. -/
def VarTable (L : LbindState) (v T t : Nat) : Prop := L.tables v (.thread T) = .table t

/-- `q` has the sockets of `T`. -/
def SockTable (L : LbindState) (v T q : Nat) : Prop :=
  ∃ t, VarTable L v T t ∧ L.tables t (.string llkResSockTable) = .table q

theorem VarTable.unique {T t u : Nat} (h : VarTable L v T t) (h' : VarTable L v T u) : t = u :=
  LuaObj.table.inj (h.symm.trans h')

structure SocksAt (L : LbindState) (w v : Nat) : Prop where
  vars : VarsAt L w v
  threads : ∀ T t, VarTable L v T t → T < L.next ∧ t ≠ w
  socks : ∀ T q, SockTable L v T q → q < L.next ∧ q ≠ L.registry ∧ q ≠ w ∧ q ≠ v
    ∧ ∀ T' t, VarTable L v T' t → t ≠ q
  sole : ∀ T T' q, SockTable L v T q → SockTable L v T' q → T = T'

/-- A step that leaves what has been registered for threads other than `X`, which may
have a new table of sockets. There may be new threads, and old ones may have lost
their variables. -/
structure LeavesSocks (L L' : LbindState) (v : Nat) (X : Option Nat) : Prop where
  registry : L'.registry = L.registry
  next : L.next ≤ L'.next
  names : ∀ s, s = lrkTidThreadTable ∨ s = lrkThreadLocalVarTable →
    L'.tables L.registry (.string s) = L.tables L.registry (.string s)
  threads : ∀ T t, VarTable L' v T t → VarTable L v T t
    ∨ L.next ≤ T ∧ T < L'.next ∧ L.next ≤ t ∧ t < L'.next ∧ ∀ T', VarTable L' v T' t → T' = T
  fresh : ∀ T q, L.next ≤ T → ¬SockTable L' v T q
  socks : ∀ T t, X ≠ some T → VarTable L v T t →
    L'.tables t (.string llkResSockTable) = L.tables t (.string llkResSockTable)
      ∧ ∀ q, L.tables t (.string llkResSockTable) = .table q → L'.tables q = L.tables q
  began : ∀ T q, X = some T → SockTable L' v T q → SockTable L v T q
    ∨ L.next ≤ q ∧ q < L'.next ∧ ∀ T' t, VarTable L' v T' t → t ≠ q

namespace LeavesSocks

theorem varsAt (h' : LeavesSocks L L' v X) (h : VarsAt L w v) : VarsAt L' w v := by
  obtain ⟨hreg, hnext, hnames, hthreads, -, -, -⟩ := h'
  obtain ⟨h1, h2, h3⟩ := h.old
  refine ⟨?_, ?_, hreg ▸ h.apart, by omega, ?_, ?_⟩
  · rw [hreg, hnames _ (.inl rfl)]
    exact h.tids
  · rw [hreg, hnames _ (.inr rfl)]
    exact h.vars
  · intro T t ht
    rcases hthreads T t ht with ht | ⟨-, -, hold, hlt, -⟩
    · obtain ⟨hr, hv, hlt⟩ := h.own T t ht
      exact ⟨hreg ▸ hr, hv, Nat.lt_of_lt_of_le hlt hnext⟩
    · omega
  · intro T T' t ht ht'
    rcases hthreads T t ht with hT | ⟨-, -, -, -, hsole⟩
    · rcases hthreads T' t ht' with hT' | ⟨-, -, -, -, hsole⟩
      · exact h.sole T T' t hT hT'
      · exact hsole T ht
    · exact (hsole T' ht').symm

/-- After such a step, a table of sockets is one from before, or the new one of `X`, which
nobody else has. -/
theorem sockTable (h' : LeavesSocks L L' v X) {T q : Nat} (hq : SockTable L' v T q) :
    SockTable L v T q ∨ X = some T ∧ L.next ≤ q ∧ q < L'.next
      ∧ ∀ T' t, VarTable L' v T' t → t ≠ q := by
  by_cases hX : X = some T
  · exact (h'.began T q hX hq).imp_right fun h => ⟨hX, h⟩
  · obtain ⟨t, ht, hentry⟩ := hq
    rcases h'.threads T t ht with hold | ⟨hnew, -⟩
    · rw [(h'.socks T t hX hold).1] at hentry
      exact .inl ⟨t, hold, hentry⟩
    · exact absurd ⟨t, ht, hentry⟩ (h'.fresh T q hnew)

theorem socksAt (h' : LeavesSocks L L' v X) (h : SocksAt L w v) : SocksAt L' w v := by
  have hreg := h'.registry
  have hnext := h'.next
  have hold := h.vars.old
  refine ⟨h'.varsAt h.vars, ?_, ?_, ?_⟩
  · intro T t ht
    rcases h'.threads T t ht with ht | ⟨-, hT, ht, -⟩
    · obtain ⟨hT, hw⟩ := h.threads T t ht
      exact ⟨Nat.lt_of_lt_of_le hT hnext, hw⟩
    · omega
  · intro T q hq
    rcases h'.sockTable hq with hq | ⟨-, hq, hlt, happart⟩
    · obtain ⟨hlt, hr, hw, hv, happart⟩ := h.socks T q hq
      refine ⟨Nat.lt_of_lt_of_le hlt hnext, hreg ▸ hr, hw, hv, fun T' t ht => ?_⟩
      rcases h'.threads T' t ht with ht | ⟨-, -, ht, -⟩
      · exact happart T' t ht
      · omega
    · exact ⟨hlt, by omega, by omega, by omega, happart⟩
  · intro T T' q hq hq'
    rcases h'.sockTable hq with hT | ⟨hX, hnew, -⟩
    · rcases h'.sockTable hq' with hT' | ⟨-, hnew, -⟩
      · exact h.sole T T' q hT hT'
      · have := (h.socks T q hT).1
        omega
    · rcases h'.sockTable hq' with hT' | ⟨hX', -⟩
      · have := (h.socks T' q hT').1
        omega
      · exact Option.some.inj (hX.symm.trans hX')

/-- What `T` has registered stays as long as it has variables. -/
theorem registered (h' : LeavesSocks L L' v X) (h : VarsAt L w v) {T : Nat} (hX : X ≠ some T)
    (hold : T < L.next) {l : List (Addr × Addr)} (hl : Registered L T l)
    (hhas : (threadVars L' T).isSome) : Registered L' T l := by
  obtain ⟨v', t, q, ht, hq, htable⟩ := hl
  obtain rfl : v = v' := LuaObj.table.inj (h.vars.symm.trans ht.vars)
  obtain ⟨t', ht'⟩ := threadVars_isSome (h'.varsAt h) hhas
  have hsame : t' = t := by
    rcases h'.threads T t' ht'.own with hle | ⟨hnew, -⟩
    · exact VarTable.unique hle ht.own
    · omega
  subst hsame
  obtain ⟨hentry, hkeep⟩ := h'.socks T t' hX ht.own
  exact ⟨v, t', q, ht', hentry.trans hq, (hkeep q hq).trans htable⟩

/-- A thread whose variables have gone does not get them back, so one that has them has had
them all along. -/
theorem threadVars_isSome (h' : LeavesSocks L L' v X) (h : VarsAt L w v) {T : Nat}
    (hold : T < L.next) (hhas : (threadVars L' T).isSome) : (threadVars L T).isSome := by
  obtain ⟨t, ht⟩ := Artorias.threadVars_isSome (h'.varsAt h) hhas
  rcases h'.threads T t ht.own with hT | ⟨hnew, -⟩
  · rw [threadVars_eq h.vars, hT]
    rfl
  · omega

end LeavesSocks

/-! ## What the calls leave -/

theorem LeavesSocks.withStack (h : LeavesSocks L L' v X) (xs : List (LuaObj LbindFn)) :
    LeavesSocks L (L'.withStack xs) v X :=
  ⟨h.registry, h.next, h.names, h.threads, h.fresh, h.socks, h.began⟩

theorem leavesSocks_refl (h : SocksAt L w v) : LeavesSocks L L v none where
  registry := rfl
  next := Nat.le_refl _
  names _ _ := rfl
  threads _ _ ht := .inl ht
  fresh T q hT := by
    rintro ⟨t, ht, -⟩
    exact Nat.not_lt.mpr hT (h.threads T t ht).1
  socks _ _ _ _ := ⟨rfl, fun _ _ => rfl⟩
  began _ _ hX := by cases hX

/-- Writes into a table that is neither the registry nor has threads or sockets, under names
other than that of the sockets, leave what has been registered. -/
theorem leavesSocks_writes (h : SocksAt L w v) {u : Nat} (hreg : u ≠ L.registry) (hv : u ≠ v)
    (hu : ∀ T q, SockTable L v T q → u ≠ q) {kvs : List (LuaObj LbindFn × LuaObj LbindFn)}
    (hkvs : LuaObj.string llkResSockTable ∉ kvs.map Prod.fst) :
    LeavesSocks L (L.writes u kvs) v none := by
  have hkeep : ∀ t, t ≠ u → (L.writes u kvs).tables t = L.tables t := fun t ht =>
    writes_of_ne L ht kvs
  have hname : ∀ t, (L.writes u kvs).tables t (.string llkResSockTable)
      = L.tables t (.string llkResSockTable) := by
    intro t
    by_cases ht : t = u
    · subst ht
      exact writes_of_notMem L t hkvs
    · rw [hkeep t ht]
  have hvar : ∀ T t, VarTable (L.writes u kvs) v T t ↔ VarTable L v T t := by
    intro T t
    rw [VarTable, VarTable, hkeep v hv.symm]
  refine ⟨by rw [writes_eq], by rw [writes_eq], fun s _ => by rw [hkeep _ hreg.symm],
    fun T t ht => .inl ((hvar T t).mp ht), ?_, ?_, fun T q hX => by cases hX⟩
  · rintro T q hT ⟨t, ht, -⟩
    exact Nat.not_lt.mpr hT (h.threads T t ((hvar T t).mp ht)).1
  · intro T t _ ht
    exact ⟨hname t, fun q hq => hkeep q (hu T q ⟨t, ht, hq⟩).symm⟩

/-- `ev_begin` makes a table for its own thread and leaves those of the others. -/
theorem Began.leavesSocks (h : SocksAt L w v) {t : Nat} {l : List (Addr × Addr)}
    (hhas : HasVars L L.thread v t) (hbegan : Began L L' t l) :
    LeavesSocks L L' v (some L.thread) ∧ Registered L' L.thread l := by
  obtain ⟨xs, rfl⟩ := hbegan
  obtain ⟨hregT, hvT, htT⟩ := h.vars.own _ _ hhas.own
  have hold := h.vars.old
  let A := L.addTable.write t (.string llkResSockTable) (.table L.next)
  let B := A.writes L.next (sockEntries l)
  have hA : ∀ u, u ≠ t → u ≠ L.next → A.tables u = L.tables u := fun u hu hnext =>
    (LuaState.write_of_ne _ hu _ _).trans (Function.update_of_ne hnext _ _)
  have hB : ∀ u, u ≠ L.next → B.tables u = A.tables u := fun u hu => writes_of_ne A hu _
  have hkeep : ∀ u, u ≠ t → u ≠ L.next → B.tables u = L.tables u := fun u hu hnext =>
    (hB u hnext).trans (hA u hu hnext)
  have hBreg : B.registry = L.registry := by
    change (A.writes _ _).registry = _
    rw [writes_eq]
    rfl
  have hBnext : B.next = L.next + 1 := by
    change (A.writes _ _).next = _
    rw [writes_eq]
    rfl
  have hvkeep : B.tables v = L.tables v := hkeep v hvT.symm (by omega)
  have hregkeep : B.tables L.registry = L.tables L.registry := hkeep _ hregT.symm (by omega)
  have hvar : ∀ T u, VarTable B v T u ↔ VarTable L v T u := by
    intro T u
    rw [VarTable, VarTable, hvkeep]
  have hentry : B.tables t (.string llkResSockTable) = .table L.next := by
    rw [hB t (by omega), write_self, Function.update_self]
  have hempty : A.tables L.next = fun _ => .nil :=
    (LuaState.write_of_ne _ (by omega) _ _).trans (Function.update_self ..)
  have htable : B.tables L.next = sockTable l := writes_sockEntries hempty l
  have hlt : ∀ T u, VarTable L v T u → u < L.next := fun T u hu => (h.vars.own T u hu).2.2
  have hhas' : HasVars B L.thread v t := by
    refine ⟨?_, ?_⟩
    · rw [hBreg, hregkeep]
      exact hhas.vars
    · rw [hvkeep]
      exact hhas.own
  have hleaves : LeavesSocks L B v (some L.thread) := by
    refine ⟨hBreg, by omega, fun s _ => by rw [hregkeep], fun T u hu => .inl ((hvar T u).mp hu), ?_,
      ?_, ?_⟩
    · rintro T q hT ⟨u, hu, -⟩
      exact Nat.not_lt.mpr hT (h.threads T u ((hvar T u).mp hu)).1
    · intro T u hT hu
      have hut : u ≠ t := by
        rintro rfl
        exact hT (congrArg some (h.vars.sole _ _ _ hhas.own hu))
      have hukeep := hkeep u hut (Nat.ne_of_lt (hlt T u hu))
      refine ⟨by rw [hukeep], fun q hq => ?_⟩
      obtain ⟨hqlt, -, -, -, happart⟩ := h.socks T q ⟨u, hu, hq⟩
      exact hkeep q (happart _ t hhas.own).symm (Nat.ne_of_lt hqlt)
    · rintro T q hT ⟨u, hu, hq⟩
      obtain rfl := Option.some.inj hT
      obtain rfl : t = u := VarTable.unique hhas.own ((hvar _ u).mp hu)
      rw [hentry, LuaObj.table.injEq] at hq
      refine .inr ⟨by omega, by omega, fun T' t' ht' => ?_⟩
      have := hlt T' t' ((hvar T' t').mp ht')
      omega
  exact ⟨hleaves.withStack xs, v, t, L.next, hhas'.withStack xs, hentry, htable⟩

/-- Lua with one more thread, which `x` leads to and which has an empty table. -/
def refState (L : LbindState) (w v : Nat) (x : LuaObj LbindFn) : LbindState :=
  (L.addThread.write w x (.thread L.next)).addTable.write v (.thread L.next) (.table (L.next + 1))

theorem lcfRefTidLthread_refState (h : VarsAt L w v) (tid : BitVec 32) :
    lcfRefTidLthread (L.withStack [.integer tid.toNat])
      = .ok (((refState L w v (.integer tid.toNat)).withStack
          [.integer tid.toNat, .table w, .table v]).above [.thread L.next], 1) := by
  let x : LuaObj LbindFn := .integer tid.toNat
  let y : LuaObj LbindFn := .thread L.next
  let S := L.withStack [x]
  let E := S.addThread
  let F := (E.write w x y).addTable
  have hx : BitVec.ofInt 32 ((L.withStack [x]).index (-1)).toInteger = tid := by
    change BitVec.ofInt 32 (tid.toNat : Int) = tid
    rw [BitVec.ofInt_natCast, BitVec.ofNat_toNat, BitVec.setWidth_eq]
  have hvars : lbindCheckmetatable (S.above [.table w]) lrkThreadLocalVarTable
      "thread local var table not exist" = .ok (S.above [.table w, .table v]) := by
    have hcheck := @lbindCheckmetatable_eq (S.above [.table w]) lrkThreadLocalVarTable
      "thread local var table not exist" v h.vars
    rwa [above_above] at hcheck
  have hthread : (((S.above [.table w, .table v]).newthread).push x).pushvalue (-2)
      = E.above ([.table w, .table v, y] ++ [x, y]) := by
    rw [above_newthread, above_push, pushvalue, above_push]
    exact congrArg (fun z => E.above [.table w, .table v, y, x, z])
      (above_index_second E [.table w, .table v] y x)
  have hset : (E.above ([.table w, .table v, y] ++ [x, y])).settable (-5)
      = .ok ((E.write w x y).above [.table w, .table v, y]) :=
    settable_eq E _ (above_index_neg E [] [.table v, y, x, y] (.table w) rfl (by decide))
      (by simp [x])
  have htable : (((E.write w x y).above [.table w, .table v, y]).pushvalue (-1)).newtable
      = F.above ([.table w, .table v, y] ++ [y, .table (L.next + 1)]) := by
    rw [pushvalue, above_push, above_newtable]
    exact congrArg (fun z => F.above [.table w, .table v, y, z, .table (L.next + 1)])
      (above_index_top (E.write w x y) [.table w, .table v] y)
  have hset' : (F.above ([.table w, .table v, y] ++ [y, .table (L.next + 1)])).settable (-4)
      = .ok ((F.write v y (.table (L.next + 1))).above [.table w, .table v, y]) :=
    settable_eq F _
      (above_index_neg F [.table w] [y, y, .table (L.next + 1)] (.table v) rfl (by decide))
      (by simp [y])
  rw [lcfRefTidLthread, hx, lbindCheckmetatable_eq (h.withStack _).tids, luaBind_ok, hvars,
    luaBind_ok]
  dsimp only
  rw [hthread, hset, luaBind_ok, htable, hset', luaBind_ok]
  rfl

theorem refState_leavesSocks (h : SocksAt L w v) (x : LuaObj LbindFn) :
    LeavesSocks L (refState L w v x) v none := by
  have hold := h.vars.old
  obtain ⟨hw, hv, hwv⟩ := h.vars.apart
  let F := (L.addThread.write w x (.thread L.next)).addTable
  have hF : ∀ u, u ≠ w → u < L.next → F.tables u = L.tables u := fun u hu hlt =>
    (Function.update_of_ne (Nat.ne_of_lt (Nat.lt_succ_of_lt hlt)) _ _).trans
      (LuaState.write_of_ne L.addThread hu _ _)
  have hkeep : ∀ u, u ≠ w → u ≠ v → u < L.next → (refState L w v x).tables u = L.tables u :=
    fun u hu huv hlt => (LuaState.write_of_ne F huv _ _).trans (hF u hu hlt)
  have hvar : ∀ T t, VarTable (refState L w v x) v T t
      ↔ if T = L.next then t = L.next + 1 else VarTable L v T t := by
    intro T t
    rw [VarTable, refState, write_self]
    by_cases hT : T = L.next
    · rw [hT, Function.update_self, if_pos rfl, LuaObj.table.injEq, eq_comm]
    · rw [Function.update_of_ne fun he => hT (LuaObj.thread.inj he), if_neg hT]
      exact iff_of_eq (congrArg (· (.thread T) = .table t) (hF v hwv.symm hold.2.2))
  have hnew : (refState L w v x).tables (L.next + 1) = fun _ => .nil :=
    (LuaState.write_of_ne F (by omega) _ _).trans (Function.update_self ..)
  refine ⟨rfl, Nat.le_add_right _ 2, fun s _ => by rw [hkeep _ hw.symm hv.symm hold.1], ?_, ?_, ?_,
    fun T q hX => by cases hX⟩
  · intro T t ht
    rw [hvar] at ht
    by_cases hT : T = L.next
    · rw [if_pos hT] at ht
      subst hT ht
      refine .inr
        ⟨Nat.le_refl _, Nat.lt_add_of_pos_right Nat.two_pos, Nat.le_succ _, Nat.lt_succ_self _,
        fun T' ht' => ?_⟩
      rw [hvar] at ht'
      by_contra hT'
      rw [if_neg hT'] at ht'
      have := (h.vars.own T' _ ht').2.2
      omega
    · rw [if_neg hT] at ht
      exact .inl ht
  · rintro T q hT ⟨t, ht, hq⟩
    rw [hvar] at ht
    by_cases hTn : T = L.next
    · rw [if_pos hTn] at ht
      rw [ht, hnew] at hq
      cases hq
    · rw [if_neg hTn] at ht
      have := (h.threads T t ht).1
      omega
  · intro T t _ ht
    have htkeep := hkeep t (h.threads T t ht).2 (h.vars.own T t ht).2.1 (h.vars.own T t ht).2.2
    refine ⟨by rw [htkeep], fun q hq => ?_⟩
    obtain ⟨hlt, -, hqw, hqv, -⟩ := h.socks T q ⟨t, ht, hq⟩
    exact hkeep q hqw hqv hlt

/-- `lbind_ref_tid_lthread` makes a thread with a table of its own, and leaves the other
threads alone. -/
theorem ref_leavesSocks (cstr : Addr → String) (h : SocksAt L w v) (tid : BitVec 32) :
    LeavesSocks L (lbindRefTidLthread cstr L tid).1 v none := by
  have hrun := lcfRefTidLthread_refState h.vars tid
  rw [← lbindCall_refTidLthread cstr] at hrun
  rw [lbindRefTidLthread, push_eq, push_eq, above_above, List.singleton_append,
    pcall_eq hrun (List.length_singleton).symm rfl]
  exact (refState_leavesSocks h _).withStack _

end

section
variable {L : LbindState} {w v : Nat} (cstr : Addr → String)

theorem unref_leavesSocks (h : SocksAt L w v) (tid : BitVec 32) :
    LeavesSocks L (lbindUnrefTidLthread cstr L tid).1 v none := by
  rw [h.vars.unref_eq]
  exact (leavesSocks_writes h h.vars.apart.1 h.vars.apart.2.2
    (fun T q hq => (h.socks T q hq).2.2.1.symm)
      (show LuaObj.string llkResSockTable ∉ [(_, _)].map Prod.fst by simp)).withStack _

theorem get_withStack (L : LbindState) (fields : List Addr) :
    ∃ xs, (lbindGetThreadLocalVars cstr L fields).1 = L.withStack xs := by
  have hstack : ∀ (L' : LbindState) xs, (∃ ys, L' = L.withStack ys) →
      ∃ ys, L'.withStack xs = L.withStack ys := by
    rintro _ xs ⟨ys, rfl⟩
    exact ⟨xs, rfl⟩
  rw [lbindGetThreadLocalVars, foldl_push, push_eq, above_above, List.singleton_append]
  refine popErrorMsg_keeps hstack (pcall_keeps hstack _ (List.length_map _).symm ?_)
  exact lcfGetThreadLocalVars_keeps cstr hstack ⟨_, rfl⟩

/-- Setting variables other than that of the sockets leaves what has been registered. -/
theorem set_leavesSocks (h : SocksAt L w v) (hhas : (threadVars L L.thread).isSome)
    {args : List (Addr × VaArg)} (hok : ∀ a ∈ args, a.2.Ok L)
    (hnames : ∀ a ∈ args, cstr a.1 ≠ llkResSockTable) :
    LeavesSocks L (lbindSetThreadLocalVars cstr L args).1 v none := by
  obtain ⟨t, ht⟩ := Artorias.threadVars_isSome h.vars hhas
  obtain ⟨hreg, hv, -⟩ := h.vars.own _ _ ht.own
  rw [lbindSetThreadLocalVars_eq cstr ht hok]
  refine leavesSocks_writes h hreg hv (fun T q hq => (h.socks T q hq).2.2.2.2 _ t ht.own) ?_
  intro hmem
  obtain ⟨kv, hkv, hname⟩ := List.mem_map.mp hmem
  obtain ⟨a, ha, rfl⟩ := List.mem_map.mp hkv
  exact hnames a ha (LuaObj.string.inj hname)

end

/-! ## Runs -/

section
variable {cstr : Addr → String} (num : LuaObj LbindFn → Option Int) (names : LlkNames cstr)

/-- The running thread is `th` for the worker, and has its variables. -/
def Own (L : LbindState) (th : Addr) : Prop :=
  ∃ v t, HasVars L L.thread v t ∧ L.tables t (.string llkThread) = .lightuserdata (some th)

/-- A call, or something else that happens in between; the first argument is the
thread that has called `ev_begin`. -/
inductive EvStep : Option Nat → LuaWorker → LuaWorker → Prop where
  | evBegin {s : LuaWorker} {th : Addr} {r : LuaWorker × Nat} : Own s.lua th →
      lcfSocketEvBegin num names s = .ok r → EvStep (some s.lua.thread) s r.1
  | evBeginRaises {s s' : LuaWorker} {th : Addr} : Own s.lua th →
      lcfSocketEvBegin num names s = .error (.raised s') → EvStep (some s.lua.thread) s s'
  | evEnd {s : LuaWorker} {r : LuaWorker × Nat} : lcfSocketEvEnd names s = .ok r → EvStep none s r.1
  | evEndRaises {s s' : LuaWorker} : lcfSocketEvEnd names s = .error (.raised s') → EvStep none s s'
  | evWait {s : LuaWorker} {r : LuaWorker × Nat} : kSocketEvWait num names s = .ok r →
      EvStep none s r.1
  | evWaitRaises {s s' : LuaWorker} : kSocketEvWait num names s = .error (.raised s') →
      EvStep none s s'
  | ref {s : LuaWorker} (tid : BitVec 32) :
      EvStep none s { s with lua := (lbindRefTidLthread cstr s.lua tid).1 }
  | unref {s : LuaWorker} (tid : BitVec 32) :
      EvStep none s { s with lua := (lbindUnrefTidLthread cstr s.lua tid).1 }
  | get {s : LuaWorker} (fields : List Addr) :
      EvStep none s { s with lua := (lbindGetThreadLocalVars cstr s.lua fields).1 }
  | set {s : LuaWorker} (args : List (Addr × VaArg)) : (threadVars s.lua s.lua.thread).isSome →
      (∀ a ∈ args, a.2.Ok s.lua) → (∀ a ∈ args, cstr a.1 ≠ llkResSockTable) →
        EvStep none s { s with lua := (lbindSetThreadLocalVars cstr s.lua args).1 }
  /-- Another thread may run, with other values on its stack, and the worker may do
  anything. -/
  | other {s s' : LuaWorker} :
      (∀ v, s.lua.tables s.lua.registry (.string lrkThreadLocalVarTable) = .table v →
        LeavesSocks s.lua s'.lua v none) → EvStep none s s'

/-- From `lbind_init_state` on: no thread has been made. -/
inductive EvReach : LuaWorker → Prop where
  | start {s : LuaWorker} {w v : Nat} : VarsAt s.lua w v → (∀ T t, ¬VarTable s.lua v T t) →
      EvReach s
  | step {s s' : LuaWorker} {o : Option Nat} : EvReach s → EvStep num names o s s' → EvReach s'

end

section
variable {cstr : Addr → String} {num : LuaObj LbindFn → Option Int} {names : LlkNames cstr}
  {s s' : LuaWorker} {w v : Nat} {o : Option Nat}

theorem LeavesSocks.weaken {L L' : LbindState} (h : LeavesSocks L L' v none) (X : Option Nat) :
    LeavesSocks L L' v X where
  registry := h.registry
  next := h.next
  names := h.names
  threads := h.threads
  fresh := h.fresh
  socks T t _ := h.socks T t (by simp)
  began T q _ hq := .inl ((h.sockTable hq).resolve_right fun hn => by cases hn.1)

/-- What differs is the stack only. -/
def SameLua (s s' : LuaWorker) : Prop := ∃ xs, s'.lua = s.lua.withStack xs

theorem SameLua.leavesSocks (h : SameLua s s') (hs : SocksAt s.lua w v) :
    LeavesSocks s.lua s'.lua v none := by
  obtain ⟨xs, hxs⟩ := h
  rw [hxs]
  exact (leavesSocks_refl hs).withStack xs

/-- Whatever the call comes to, Lua is as it was up to the stack. -/
abbrev KeepsLua (s : LuaWorker) (x : CallRun (LuaWorker × Nat)) : Prop :=
  Meets x (fun r => SameLua s r.1) (CallStop.Within (fun _ => True) (SameLua s))

theorem ofApi_keeps {x : ApiRun LbindFn LbindState} (w' : MwWorker)
    (h : Meets x (fun L => ∃ xs, L = s.lua.withStack xs) fun e => ∃ xs, e.2 = s.lua.withStack xs) :
    Meets (ofApi w' x) (SameLua s) (CallStop.Within (fun _ => True) (SameLua s)) := by
  cases x with
  | ok L => exact h
  | error e => exact h

theorem ofWorker_keeps {α : Type} (x : WRun α) :
    Meets (ofWorker x) (fun _ => True) (CallStop.Within (fun _ => True) (SameLua s)) := by
  cases x <;> trivial

theorem pushSocket_keeps (L : LbindState) (names : LlkNames cstr) : Meets (pushSocket names L)
    (fun L' => ∃ xs, L' = L.withStack xs) fun e => ∃ xs, e.2 = L.withStack xs := by
  have hstack : ∀ (L' : LbindState) xs, (∃ ys, L' = L.withStack ys) →
      ∃ ys, L'.withStack xs = L.withStack ys := by
    rintro _ xs ⟨ys, rfl⟩
    exact ⟨xs, rfl⟩
  refine gettable_keeps hstack ?_ (-3)
  exact hstack _ _ (hstack _ _ (get_withStack cstr L _))

theorem kSocketEvWait_keeps (s : LuaWorker) : KeepsLua s (kSocketEvWait num names s) := by
  refine (checkinteger_meets.imp_error ?_).bind fun type _ => ?_
  · rintro e ⟨x, rfl, -⟩
    exact ⟨_, rfl⟩
  have hpush := ofApi_keeps s.mw (pushSocket_keeps s.lua names)
  dsimp only
  split
  · exact hpush.bind fun s1 h1 => by
      obtain ⟨xs, hxs⟩ := h1
      exact ⟨_, by dsimp only; rw [hxs]; rfl⟩
  · split
    · exact hpush.bind fun s1 h1 => by
        obtain ⟨xs, hxs⟩ := h1
        exact ⟨_, by dsimp only [LuaWorker.push]; rw [hxs]; rfl⟩
    · split
      · exact ⟨_, rfl⟩
      · exact ⟨_, rfl⟩

theorem lcfSocketEvEnd_keeps (s : LuaWorker) : KeepsLua s (lcfSocketEvEnd names s) := by
  obtain ⟨xs, hxs⟩ := get_withStack cstr s.lua [names.thread]
  have hreg : Meets (lbindCheckregvalue (s.lua.withStack xs) lrkWorkerCtx "no worker ctx")
      (fun L => ∃ xs, L = s.lua.withStack xs) fun e => ∃ xs, e.2 = s.lua.withStack xs := by
    refine ((lbindCheckregvalue_meets _ _ _).imp ?_).imp_error ?_
    · rintro L ⟨p, rfl⟩
      exact ⟨_, rfl⟩
    · rintro e ⟨ys, he⟩
      exact ⟨ys, he⟩
  rw [lcfSocketEvEnd, hxs]
  split
  · exact ⟨xs, rfl⟩
  · refine (ofWorker_keeps _).bind fun t _ => ?_
    split
    · exact ⟨xs, rfl⟩
    · refine (ofApi_keeps s.mw hreg).bind fun s1 h1 => ?_
      exact (ofWorker_keeps _).bind fun w' _ => h1

theorem Own.hasVars {L : LbindState} {th : Addr} (h : Own L th) (hvars : VarsAt L w v) :
    ∃ t, HasVars L L.thread v t ∧ L.tables t (.string llkThread) = .lightuserdata (some th) := by
  obtain ⟨v', t, ht, hth⟩ := h
  obtain rfl : v = v' := LuaObj.table.inj (hvars.vars.symm.trans ht.vars)
  exact ⟨t, ht, hth⟩

/-- A step leaves the tables of sockets, but that of the thread that calls `ev_begin`. -/
theorem EvStep.leavesSocks (h : EvStep num names o s s') (hs : SocksAt s.lua w v) :
    LeavesSocks s.lua s'.lua v o := by
  cases h with
  | evBegin hown hrun =>
      obtain ⟨t, ht, hth⟩ := hown.hasVars hs.vars
      obtain ⟨hbegun, -⟩ := (evBegin_meets num names hs.vars ht hth).of_ok hrun
      exact (hbegun.lua.leavesSocks hs ht).1
  | evBeginRaises hown hrun =>
      obtain ⟨t, ht, hth⟩ := hown.hasVars hs.vars
      have hmeets := evBegin_meets num names hs.vars ht hth
      rw [hrun] at hmeets
      rcases hmeets with ⟨-, hsame⟩ | hbegun
      · exact (SameLua.leavesSocks hsame hs).weaken _
      · exact (hbegun.lua.leavesSocks hs ht).1
  | evEnd hrun => exact ((lcfSocketEvEnd_keeps s).of_ok hrun).leavesSocks hs
  | evEndRaises hrun =>
      have hkeeps : KeepsLua s (lcfSocketEvEnd names s) := lcfSocketEvEnd_keeps s
      rw [hrun] at hkeeps
      exact SameLua.leavesSocks hkeeps hs
  | evWait hrun => exact ((kSocketEvWait_keeps s).of_ok hrun).leavesSocks hs
  | evWaitRaises hrun =>
      have hkeeps : KeepsLua s (kSocketEvWait num names s) := kSocketEvWait_keeps s
      rw [hrun] at hkeeps
      exact SameLua.leavesSocks hkeeps hs
  | ref tid => exact ref_leavesSocks cstr hs tid
  | unref tid => exact unref_leavesSocks cstr hs tid
  | get fields => exact SameLua.leavesSocks (get_withStack cstr _ fields) hs
  | set args hhas hok hnames => exact set_leavesSocks cstr hs hhas hok hnames
  | other hleaves => exact hleaves v hs.vars.vars

theorem EvReach.socksAt (h : EvReach num names s) : ∃ w v, SocksAt s.lua w v := by
  induction h with
  | @start s w v hvars hnone =>
      refine ⟨w, v, hvars, fun T t ht => absurd ht (hnone T t), ?_, ?_⟩
      · rintro T q ⟨t, ht, -⟩
        exact absurd ht (hnone T t)
      · rintro T T' q ⟨t, ht, -⟩
        exact absurd ht (hnone T t)
  | step _ hstep ih =>
      obtain ⟨w, v, hs⟩ := ih
      exact ⟨w, v, (hstep.leavesSocks hs).socksAt hs⟩

/-- A run in which `T` does not call `ev_begin`. -/
def RunWithout (num : LuaObj LbindFn → Option Int) (names : LlkNames cstr) (T : Nat)
    (s s' : LuaWorker) : Prop :=
  Relation.ReflTransGen (fun a b => ∃ o, o ≠ some T ∧ EvStep num names o a b) s s'

/-- What `T` has registered stays through any run in which it does not call `ev_begin`, if
it is still there in the end. -/
theorem RunWithout.registered {T : Nat} (h : RunWithout num names T s s') (hs : SocksAt s.lua w v)
    (hold : T < s.lua.next) {l : List (Addr × Addr)} (hl : Registered s.lua T l) :
    SocksAt s'.lua w v ∧ T < s'.lua.next
      ∧ ((threadVars s'.lua T).isSome → Registered s'.lua T l) := by
  induction h with
  | refl => exact ⟨hs, hold, fun _ => hl⟩
  | tail _ hstep ih =>
      obtain ⟨hs', hold', hl'⟩ := ih
      obtain ⟨o, ho, hstep⟩ := hstep
      have hleaves := hstep.leavesSocks hs'
      refine ⟨hleaves.socksAt hs', Nat.lt_of_lt_of_le hold' hleaves.next, fun halive => ?_⟩
      have hbefore := hleaves.threadVars_isSome hs'.vars hold' halive
      exact hleaves.registered hs'.vars ho hold' (hl' hbefore) halive

/-- A thread has called `ev_begin`, which the worker has seen as a call with the sockets
that were on the stack. Whatever the other threads do then: as long as the thread has not
called it again, `ev_wait` returns for a resource the socket that it was accepted with, or
nil if it was not among them. -/
theorem ev_wait_socket (h : EvReach num names s) {th : Addr} (hown : Own s.lua th)
    {r : LuaWorker × Nat} (hbegin : lcfSocketEvBegin num names s = .ok r)
    (hrun : RunWithout num names s.lua.thread r.1 s') (hthread : s'.lua.thread = s.lua.thread)
    (halive : (threadVars s'.lua s'.lua.thread).isSome) {timeout io : LuaObj LbindFn} {type : Int}
    {res : Addr} (hstack : s'.lua.stack = [timeout, .integer type, .lightuserdata (some res), io])
    (htype : type = lasSResumeIo ∨ type = lasSResumeIoError) :
    Artorias.lcfSocketEvBegin s.mw th (evSocks num s) true = .ok r.1.mw
      ∧ results r = [.integer (accepted s.mw th (evSocks num s)).length]
      ∧ ∃ r', kSocketEvWait num names s' = .ok r' ∧ results r' = [.integer type,
          lastSocket (accepted s.mw th (evSocks num s)) res,
          if type = lasSResumeIo then io else .nil] := by
  obtain ⟨w, v, hs⟩ := h.socksAt
  obtain ⟨t, ht, hth⟩ := hown.hasVars hs.vars
  obtain ⟨hbegun, hcount⟩ := (evBegin_meets num names hs.vars ht hth).of_ok hbegin
  obtain ⟨hleaves, hl⟩ := hbegun.lua.leavesSocks hs ht
  have hold := Nat.lt_of_lt_of_le (hs.threads _ t ht.own).1 hleaves.next
  obtain ⟨-, -, hl'⟩ := hrun.registered (hleaves.socksAt hs) hold hl
  rw [hthread] at halive
  have hregistered : Registered s'.lua s'.lua.thread (accepted s.mw th (evSocks num s)) := by
    rw [hthread]
    exact hl' halive
  exact ⟨hbegun.worker, hcount, kSocketEvWait_results num names hregistered hstack htype⟩

end

/-! ## An event for one of two threads -/

theorem EvStep.switch {cstr : Addr → String} {num : LuaObj LbindFn → Option Int}
    {names : LlkNames cstr} {s : LuaWorker} (h : EvReach num names s) (T : Nat)
    (xs : List (LuaObj LbindFn)) :
    EvStep num names none s { s with lua := { s.lua with thread := T, stack := xs } } := by
  obtain ⟨w, v, hs⟩ := h.socksAt
  refine .other fun v' hv' => ?_
  obtain rfl : v = v' := LuaObj.table.inj (hs.vars.vars.symm.trans hv')
  obtain ⟨h1, h2, h3, h4, h5, h6, h7⟩ := leavesSocks_refl hs
  exact ⟨h1, h2, h3, h4, h5, h6, h7⟩

def evCstr (p : Addr) : String :=
  if p = 100 then llkResSockTable else if p = 102 then lrkWorkerCtx else llkThread

def evNames : LlkNames evCstr := ⟨100, 101, rfl, rfl⟩

/-- The thread at 10 has a connection, and the socket 30 for it. -/
def evWorker : MwWorker :=
  { startWorker with
    number := fun th => if th = 10 then some 4 else none
    ress := fun a => if a = 20 then some ⟨true, .idle, some 10, 5, 4⟩ else none
    socks := fun u => if u = 30 then some ⟨some 20, .system, 0⟩ else none
    fds := fun fd => if fd = 5 then some 4 else none
    epoll := fun fd => if fd = 5 then some (0, 20) else none }

/-- Before any thread; the worker has registered itself. -/
def evState : LbindState where
  stack := []
  thread := 0
  tables t k :=
    if t = 0 then
      if k = .string lrkTidThreadTable then .table 1
      else if k = .string lrkThreadLocalVarTable then .table 2
      else if k = .string lrkWorkerCtx then .lightuserdata (some 1)
      else .nil
    else .nil
  registry := 0
  next := 3

/-- The thread 3 has been made, has been told what it is for the worker, and calls
`ev_begin` with its socket. -/
def evCaller : LbindState :=
  { (lbindSetThreadLocalVars evCstr
      { (lbindRefTidLthread evCstr evState 1).1 with thread := 3 } [(101, .ptr (some 10))]).1 with
    stack := [.integer 1, .userdata 30, .integer 1] }

theorem evCaller_reach (num : LuaObj LbindFn → Option Int) :
    EvReach num evNames ⟨evCaller, evWorker⟩ := by
  have hnone : ∀ T t, ¬VarTable evState 2 T t := by
    intro T t ht
    cases ht
  have hvars : VarsAt evState 1 2 :=
    ⟨rfl, rfl, by decide, by decide, fun T t ht => absurd ht (hnone T t),
      fun T _ t ht => absurd ht (hnone T t)⟩
  have hstart : EvReach num evNames ⟨evState, evWorker⟩ := .start hvars hnone
  have hmade := hstart.step (.ref 1)
  have hruns := hmade.step (EvStep.switch hmade 3 [])
  have htold := hruns.step (.set [(101, .ptr (some 10))] rfl (by simp [VaArg.Ok]) (by decide))
  exact htold.step (EvStep.switch htold 3 [.integer 1, .userdata 30, .integer 1])

/-- Another thread is made before the socket is ready, and the socket is returned all the
same. -/
theorem ev_wait_socket_other : ∃ r s', lcfSocketEvBegin (fun _ => none) evNames ⟨evCaller, evWorker⟩
      = .ok r
    ∧ RunWithout (fun _ => none) evNames 3 r.1 s' ∧ results r = [.integer 1]
    ∧ ∃ r', kSocketEvWait (fun _ => none) evNames s' = .ok r'
      ∧ results r' = [.integer lasSResumeIo, .userdata 30, .integer lasSReadyToInput] := by
  have hreach := evCaller_reach fun _ => none
  have hown : Own evCaller 10 := ⟨2, 4, ⟨rfl, rfl⟩, rfl⟩
  obtain ⟨r, hbegin⟩ : ∃ r, lcfSocketEvBegin (fun _ => none) evNames ⟨evCaller, evWorker⟩ = .ok r :=
    ⟨_, rfl⟩
  have hbegun := hreach.step (.evBegin hown hbegin)
  have hmade := hbegun.step (.ref 2)
  have hback := EvStep.switch hmade 3
    [.integer 60, .integer lasSResumeIo, .lightuserdata (some 20), .integer lasSReadyToInput]
  have hrun : RunWithout (fun _ => none) evNames 3 r.1 _ :=
    (Relation.ReflTransGen.single ⟨none, by simp, .ref 2⟩).tail ⟨none, by simp, hback⟩
  have halive : (threadVars (lbindRefTidLthread evCstr r.1.lua 2).1 3).isSome := by
    rw [← Except.ok.inj hbegin]
    rfl
  obtain ⟨-, hcount, r', hwait, hresults⟩ :=
    ev_wait_socket hreach hown hbegin hrun rfl halive rfl (.inl rfl)
  exact ⟨r, _, hbegin, hrun, hcount, r', hwait, hresults⟩

end SocketEv

end Artorias
