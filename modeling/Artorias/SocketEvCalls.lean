import Artorias.SocketEv

/-!
# What `ev_begin` and `ev_wait` do

`evBegin_meets`: for the worker a call of `ev_begin` is that of `WorkerMem` with
the sockets that are on the stack (`evSocks`), and the thread has a new table, of
those that were accepted. `kSocketEvWait_results`: `ev_wait` returns what that
table has.
-/

namespace Artorias

open LuaState

namespace SocketEv

/-! ## Which sockets are accepted -/

section
variable (num : LuaObj LbindFn → Option Int) (s : LuaWorker)

/-- The arguments of turn `i`: a socket and its events. -/
def evArg (i : Nat) : Option (Addr × BitVec 32) :=
  match s.lua.index (i * 2) with
  | .userdata u =>
      if (s.mw.socks u).isSome then
        ((s.lua.index (i * 2 + 1)).toIntegerx num).map fun ev => (u, BitVec.ofInt 32 ev)
      else none
  | _ => none

/-- Those of `k` turns from the turn `i` on, up to one that raises an error. -/
def evArgs : Nat → Nat → List (Addr × BitVec 32)
  | 0, _ => []
  | k + 1, i =>
      match evArg num s i with
      | none => []
      | some a => a :: evArgs k (i + 1)

/-- The arguments of all turns: index 1 has their number, and each is two values
further on. -/
def evSocks : List (Addr × BitVec 32) :=
  match (s.lua.index 1).toIntegerx num with
  | none => []
  | some n => evArgs num s (cInt n).toNat 1

variable {num s}

theorem evArgs_congr {s' : LuaWorker} {i : Nat} (h : ∀ j ≥ i, evArg num s' j = evArg num s j)
    (k : Nat) :
    evArgs num s' k i = evArgs num s k i := by
  induction k generalizing i with
  | zero => rfl
  | succ k ih =>
      rw [evArgs, evArgs, h i (Nat.le_refl i)]
      cases evArg num s i with
      | none => rfl
      | some a => exact congrArg (a :: ·) (ih fun j hj => h j (Nat.le_of_succ_le hj))

/-- Neither a socket nor an integer. -/
def Plain (num : LuaObj LbindFn → Option Int) (x : LuaObj LbindFn) : Prop :=
  (∀ u, x ≠ .userdata u) ∧ x.toIntegerx num = none

/-- Values pushed on the arguments, if they are neither sockets nor integers, are seen at no
index as an argument that was not there. -/
theorem index_plain {L : LbindState} {ys : List (LuaObj LbindFn)} (hys : ∀ y ∈ ys, Plain num y)
    {i : Int} (hi : 0 < i) : (L.above ys).index i = L.index i
      ∨ Plain num ((L.above ys).index i) ∧ Plain num (L.index i) := by
  have hnil : Plain num .nil := ⟨by simp, rfl⟩
  by_cases hle : i ≤ L.gettop
  · exact .inl (above_index L ys hi hle)
  · have hreg : i ≠ luaRegistryindex := by
      unfold luaRegistryindex
      omega
    rw [gettop] at hle
    refine .inr ⟨?_, ?_⟩
    · rw [index, if_neg hreg, if_pos hi, above, withStack, List.getD_eq_getElem?_getD,
        List.getElem?_append_right (by omega)]
      cases hy : ys[i.toNat - 1 - L.stack.length]? with
      | none => exact hnil
      | some y => exact hys y (List.mem_of_getElem? hy)
    · rw [index, if_neg hreg, if_pos hi, List.getD_eq_default _ _ (by omega)]
      exact hnil

section
variable {s' : LuaWorker} {ys : List (LuaObj LbindFn)}
  (hindex : ∀ i, 0 < i → s'.lua.index i = (s.lua.above ys).index i) (hmw : s'.mw.socks = s.mw.socks)
  (hys : ∀ y ∈ ys, Plain num y)

include hindex hys

theorem toIntegerx_above {i : Int} (hi : 0 < i) :
    (s'.lua.index i).toIntegerx num = (s.lua.index i).toIntegerx num := by
  rw [hindex i hi]
  rcases index_plain hys (L := s.lua) hi with h | ⟨h, h'⟩
  · rw [h]
  · rw [h.2, h'.2]

include hmw

theorem evArg_above {i : Nat} (hi : 0 < i) : evArg num s' i = evArg num s i := by
  have hplain : ∀ s : LuaWorker, Plain num (s.lua.index (i * 2)) → evArg num s i = none := by
    intro s h
    rw [evArg]
    split
    · exact absurd ‹_› (h.1 _)
    · rfl
  have hplace := hindex (i * 2) (by omega)
  rcases index_plain hys (L := s.lua) (i := i * 2) (by omega) with h | ⟨h, h'⟩
  · rw [evArg, evArg, hplace, h, hmw, toIntegerx_above hindex hys (by omega)]
  · rw [hplain s' (hplace ▸ h), hplain s h']

theorem evSocks_above : evSocks num s' = evSocks num s := by
  rw [evSocks, evSocks, toIntegerx_above hindex hys Int.one_pos]
  cases (s.lua.index 1).toIntegerx num with
  | none => rfl
  | some n => exact evArgs_congr (fun j hj => evArg_above hindex hmw hys hj) _

end

end

/-- The resources that `ev_begin` puts in its table, each with its socket: those
of the first sockets that are open and of `th`. -/
def accepted (w : MwWorker) (th : Addr) : List (Addr × BitVec 32) → List (Addr × Addr)
  | [] => []
  | (u, _) :: socks =>
      match (w.socks u).bind LmSocket.res with
      | none => []
      | some res =>
          if (w.ress res).bind AsThreadRes.th = some th then (res, u) :: accepted w th socks else []

/-- Neither the sockets nor the threads of the resources have changed. -/
structure SameSocks (w w' : MwWorker) : Prop where
  socks : w'.socks = w.socks
  threads : ∀ a, (w'.ress a).bind AsThreadRes.th = (w.ress a).bind AsThreadRes.th

theorem accepted_congr {w w' : MwWorker} (h : SameSocks w w') (th : Addr)
    (socks : List (Addr × BitVec 32)) : accepted w' th socks = accepted w th socks := by
  induction socks with
  | nil => rfl
  | cons s socks ih =>
      obtain ⟨u, ev⟩ := s
      simp only [accepted, h.socks, h.threads, ih]

/-- The table of what has been accepted; of two entries for one resource the
later stays. -/
def sockTable (l : List (Addr × Addr)) : LuaObj LbindFn → LuaObj LbindFn :=
  l.foldl (fun f p => Function.update f (.lightuserdata (some p.1)) (.userdata p.2)) fun _ => .nil

/-- The socket of the last entry for a resource, or nil. -/
def lastSocket (l : List (Addr × Addr)) (res : Addr) : LuaObj LbindFn :=
  ((l.reverse.lookup res).map LuaObj.userdata).getD .nil

theorem sockTable_eq (l : List (Addr × Addr)) (res : Addr) :
    sockTable l (.lightuserdata (some res)) = lastSocket l res := by
  rw [sockTable, lastSocket, ← List.foldr_reverse]
  induction l.reverse with
  | nil => rfl
  | cons p l ih =>
      rw [List.foldr_cons, List.lookup_cons]
      by_cases hp : res = p.1
      · subst hp
        rw [Function.update_self, beq_self_eq_true]
        rfl
      · have hne :
          (LuaObj.lightuserdata (some res) : LuaObj LbindFn) ≠ .lightuserdata (some p.1) := by
          simpa using hp
        rw [Function.update_of_ne hne, beq_false_of_ne hp, ih]

/-- The keys and values that make the table of the sockets out of an empty one. -/
def sockEntries (l : List (Addr × Addr)) : List (LuaObj LbindFn × LuaObj LbindFn) :=
  l.map fun p => (.lightuserdata (some p.1), .userdata p.2)

theorem writes_sockEntries {L : LbindState} {q : Nat} (hq : L.tables q = fun _ => .nil)
    (l : List (Addr × Addr)) : (L.writes q (sockEntries l)).tables q = sockTable l := by
  rw [sockTable, ← hq]
  clear hq
  induction l generalizing L with
  | nil => rfl
  | cons p l ih =>
      rw [List.foldl_cons, ← write_self L q]
      exact ih

/-! ## The turns of `ev_begin` -/

section
variable {L : LbindState}

theorem index_push {v : LuaObj LbindFn} {i : Int} (hi : 0 < i) (hne : L.index i ≠ .nil) :
    (L.push v).index i = L.index i := by
  rw [push_eq]
  refine above_index L _ hi ?_
  by_contra hgt
  refine hne ?_
  have hreg : i ≠ luaRegistryindex := by
    unfold luaRegistryindex
    omega
  rw [gettop] at hgt
  rw [index, if_neg hreg, if_pos hi, List.getD_eq_default _ _ (by omega)]

theorem above_two_index (k v : LuaObj LbindFn) : (L.above [k, v]).index (-3) = L.index (-1) := by
  simp [index, luaRegistryindex, above, withStack, List.reverse_append]

end

section
variable {num : LuaObj LbindFn → Option Int} {s : LuaWorker} {i : Int}

theorem checkudata_meets : Meets (s.checkudata i)
    (fun p => s.lua.index i = .userdata p.1 ∧ s.mw.socks p.1 = some p.2)
    (fun e => ∃ v, e = .raised (s.push v)
      ∧ ∀ u, s.lua.index i = .userdata u → s.mw.socks u = none) := by
  rw [LuaWorker.checkudata]
  split
  · rename_i u hu
    split
    · rename_i sock hsock
      exact ⟨hu, hsock⟩
    · rename_i hsock
      refine ⟨_, rfl, fun u' hu' => ?_⟩
      rw [hu, LuaObj.userdata.injEq] at hu'
      exact hu' ▸ hsock
  · rename_i hu
    exact ⟨_, rfl, fun u hu' => absurd hu' (hu u)⟩

theorem checkinteger_meets : Meets (s.checkinteger num i)
    (fun n => (s.lua.index i).toIntegerx num = some n)
    (fun e => ∃ v, e = .raised (s.push v) ∧ (s.lua.index i).toIntegerx num = none) := by
  rw [LuaWorker.checkinteger]
  cases hn : (s.lua.index i).toIntegerx num with
  | none => exact ⟨_, rfl, rfl⟩
  | some n => exact rfl

theorem asthreadResEvAdd_sameSocks {w : MwWorker} {res : Addr} {r : AsThreadRes}
    (hr : w.ress res = some r) (ev : BitVec 32) :
    ∃ w', asthreadResEvAdd (w.setRes res { r with status := .ev }) res ev = .ok w'
      ∧ SameSocks w w' := by
  have hset : ∀ w1 : MwWorker, w1.socks = w.socks → w1.ress = w.ress →
      SameSocks w (w1.setRes res { r with status := .ev }) := by
    intro w1 hsocks hress
    refine ⟨hsocks, fun a => ?_⟩
    change (Function.update w1.ress res _ a).bind _ = _
    rw [hress]
    by_cases ha : a = res
    · rw [ha, Function.update_self, hr]
      rfl
    · rw [Function.update_of_ne ha]
  have hself : (w.setRes res { r with status := .ev }).ress res = some { r with status := .ev } :=
    Function.update_self ..
  rw [asthreadResEvAdd, MwWorker.res, hself]
  dsimp only [Bind.bind, Except.bind]
  split
  · refine ⟨_, rfl, ?_⟩
    have h := hset (w.watch r.d ev res) rfl rfl
    refine ⟨rfl, fun a => ?_⟩
    rw [← h.threads a]
    by_cases ha : a = res
    · subst ha
      simp [MwWorker.setRes]
    · simp [MwWorker.setRes, MwWorker.watch, ha]
  · exact ⟨_, rfl, hset w rfl rfl⟩

/-- `s'` comes after `s`, the sockets `socks` having been taken one by one: the worker is as
`evBeginLoop` leaves it, and the table `q` has what was accepted. -/
def Begins (th : Addr) (q : Nat) (s s' : LuaWorker) (socks : List (Addr × BitVec 32)) : Prop :=
  evBeginLoop th socks s.mw = .ok s'.mw
    ∧ ∃ xs, s'.lua = (s.lua.writes q (sockEntries (accepted s.mw th socks))).withStack xs

end

section
variable (num : LuaObj LbindFn → Option Int) {s : LuaWorker} {th : Addr} {q : Nat}

/-- One more socket has been taken: its resource is armed, and is under it in the table. -/
structure Takes (th : Addr) (q : Nat) (s s' : LuaWorker) (a : Addr × BitVec 32) (res : Addr) :
    Prop where
  loop : ∀ socks, evBeginLoop th (a :: socks) s.mw = evBeginLoop th socks s'.mw
  accepted : ∀ socks, accepted s.mw th (a :: socks) = (res, a.1) :: accepted s'.mw th socks
  lua : s'.lua = s.lua.write q (.lightuserdata (some res)) (.userdata a.1)
  socks : s'.mw.socks = s.mw.socks

theorem Takes.begins {s' s'' : LuaWorker} {a : Addr × BitVec 32} {res : Addr}
    {socks : List (Addr × BitVec 32)} (h : Takes th q s s' a res) (h' : Begins th q s' s'' socks) :
    Begins th q s s'' (a :: socks) := by
  obtain ⟨hloop, xs, hlua⟩ := h'
  refine ⟨(h.loop socks).trans hloop, xs, ?_⟩
  rw [hlua, h.accepted, h.lua]
  rfl

theorem Takes.evArgs {s' : LuaWorker} {a : Addr × BitVec 32} {res : Addr}
    (h : Takes th q s s' a res) (k i : Nat) : evArgs num s' k i = evArgs num s k i := by
  refine evArgs_congr (fun j _ => ?_) k
  rw [evArg, evArg, h.lua, h.socks]
  rfl

/-- The loop of the worker stops at a socket that is closed or of another thread, and
accepts nothing from there on. -/
theorem evBeginLoop_break {w : MwWorker} {u : Addr} {sock : LmSocket}
    (hsock : w.socks u = some sock)
    (hres : ∀ a, sock.res = some a → ∃ r, w.ress a = some r ∧ r.th ≠ some th) (ev : BitVec 32)
    (socks : List (Addr × BitVec 32)) :
    evBeginLoop th ((u, ev) :: socks) w = .ok w ∧ accepted w th ((u, ev) :: socks) = [] := by
  rw [evBeginLoop, accepted, hsock]
  dsimp only [Option.bind_some]
  cases hopen : sock.res with
  | none => exact ⟨rfl, rfl⟩
  | some a =>
      obtain ⟨r, hr, hne⟩ := hres a hopen
      dsimp only
      rw [hr, Option.bind_some, if_neg hne]
      exact ⟨if_pos hne, rfl⟩

/-- What a turn can do, its arguments being `o`. -/
def TurnEnds (th : Addr) (q : Nat) (s : LuaWorker) (o : Option (Addr × BitVec 32)) :
    Option LuaWorker → Prop
  | none => ∃ a, o = some a ∧ ∀ socks, evBeginLoop th (a :: socks) s.mw = .ok s.mw
      ∧ accepted s.mw th (a :: socks) = []
  | some s' => ∃ a res, o = some a ∧ Takes th q s s' a res

/-- How a turn can fail, its arguments being `o`: with a fault of the worker that no further
sockets avert, or by an error of Lua, with the worker as it was. -/
def TurnFails (th : Addr) (s : LuaWorker) (o : Option (Addr × BitVec 32)) : CallStop → Prop :=
  CallStop.Within (fun f => ∃ a, o = some a ∧ ∀ socks, evBeginLoop th (a :: socks) s.mw = .error f)
    fun s' => o = none ∧ s'.mw = s.mw ∧ ∃ xs, s'.lua = s.lua.withStack xs

/-- A turn of the loop for an open socket of `th` takes it. -/
theorem evBeginSock_takes {i : Nat} {u res : Addr} (ev : Int) {sock : LmSocket} {r : AsThreadRes}
    (hi : 0 < i) (hq : s.lua.index (-1) = .table q) (hu : s.lua.index (i * 2) = .userdata u)
    (hsock : s.mw.socks u = some sock) (hres : sock.res = some res) (hr : s.mw.ress res = some r)
    (hth : r.th = some th) :
    ∃ s', evBeginSock (some th) i s sock ev = .ok (some s')
      ∧ Takes th q s s' (u, BitVec.ofInt 32 ev) res := by
  have hpush : (s.lua.push (.lightuserdata (some res))).pushvalue (i * 2)
      = s.lua.above [.lightuserdata (some res), .userdata u] := by
    have hindex := index_push (v := .lightuserdata (some res)) (i := i * 2) (by omega)
      (by rw [hu]; exact fun h => by cases h)
    rw [pushvalue, hindex, hu, push_eq, push_eq, above_above]
    rfl
  have hset : (s.lua.above [.lightuserdata (some res), .userdata u]).settable (-3)
      = .ok (s.lua.write q (.lightuserdata (some res)) (.userdata u)) := by
    have h := settable_eq s.lua [] (k := .lightuserdata (some res)) (v := .userdata u)
      ((above_two_index _ _).trans hq) (fun h => by cases h)
    rwa [List.nil_append, above_nil] at h
  obtain ⟨w', hadd, hsame⟩ := asthreadResEvAdd_sameSocks hr (BitVec.ofInt 32 ev)
  refine ⟨⟨s.lua.write q (.lightuserdata (some res)) (.userdata u), w'⟩, ?_, ?_, ?_, rfl,
    hsame.socks⟩
  · rw [evBeginSock, hres]
    dsimp only
    rw [hr]
    dsimp only
    rw [if_neg (not_not.mpr hth), hpush, hset, ofApi, callBind_ok, hadd]
    rfl
  · intro socks
    rw [evBeginLoop, hsock]
    dsimp only
    rw [hres]
    dsimp only
    rw [hr]
    dsimp only
    rw [if_neg (not_not.mpr hth), hadd]
    rfl
  · intro socks
    rw [accepted, hsock, Option.bind_some, hres]
    dsimp only
    rw [hr, Option.bind_some, if_pos hth, accepted_congr hsame]

theorem evBeginSock_meets {i : Nat} {u : Addr} (ev : Int) {sock : LmSocket} (hi : 0 < i)
    (hq : s.lua.index (-1) = .table q) (hu : s.lua.index (i * 2) = .userdata u)
    (hsock : s.mw.socks u = some sock) :
    Meets (evBeginSock (some th) i s sock ev) (TurnEnds th q s (some (u, BitVec.ofInt 32 ev)))
      (TurnFails th s (some (u, BitVec.ofInt 32 ev))) := by
  have hbreak := @evBeginLoop_break th _ _ _ hsock
  cases hres : sock.res with
  | none =>
      rw [evBeginSock, hres]
      exact ⟨_, rfl, hbreak (fun a ha => by rw [hres] at ha; cases ha) _⟩
  | some res =>
      cases hr : s.mw.ress res with
      | none =>
          rw [evBeginSock, hres]
          dsimp only
          rw [hr]
          refine ⟨_, rfl, fun socks => ?_⟩
          rw [evBeginLoop, hsock]
          dsimp only
          rw [hres]
          dsimp only
          rw [hr]
      | some r =>
          by_cases hth : r.th = some th
          · obtain ⟨s', hrun, htakes⟩ := evBeginSock_takes ev hi hq hu hsock hres hr hth
            rw [hrun]
            exact ⟨_, res, rfl, htakes⟩
          · rw [evBeginSock, hres]
            dsimp only
            rw [hr]
            dsimp only
            rw [if_pos hth]
            refine ⟨_, rfl, hbreak (fun a ha => ?_) _⟩
            rw [hres, Option.some.injEq] at ha
            exact ⟨r, ha ▸ hr, hth⟩

theorem evBeginTurn_meets (i : Nat) (hi : 0 < i) (hq : s.lua.index (-1) = .table q) :
    Meets (evBeginTurn num (some th) i s) (TurnEnds th q s (evArg num s i))
      (TurnFails th s (evArg num s i)) := by
  refine (checkudata_meets.imp_error ?_).bind ?_
  · rintro e ⟨v, rfl, hnone⟩
    refine ⟨?_, rfl, _, rfl⟩
    rw [evArg]
    split
    · rename_i u hu
      rw [hnone u hu]
      rfl
    · rfl
  · rintro ⟨u, sock⟩ ⟨hu, hsock⟩
    dsimp only at hu hsock ⊢
    have harg : evArg num s i = ((s.lua.index (i * 2 + 1)).toIntegerx num).map
        fun ev => (u, BitVec.ofInt 32 ev) := by
      rw [evArg, hu]
      dsimp only
      rw [hsock]
      rfl
    refine (checkinteger_meets.imp_error ?_).bind ?_
    · rintro e ⟨v, rfl, hnone⟩
      exact ⟨by rw [harg, hnone]; rfl, rfl, _, rfl⟩
    · intro ev hev
      rw [harg, hev]
      exact evBeginSock_meets ev hi hq hu hsock

theorem evBeginTurns_meets (k i m : Nat) (hi : 0 < i) (hq : s.lua.index (-1) = .table q) :
    Meets (evBeginTurns num (some th) k i m s)
      (fun r => r.1.lua.stack = s.lua.stack ∧ Begins th q s r.1 (evArgs num s k i)
        ∧ r.2 = m + (accepted s.mw th (evArgs num s k i)).length)
      (CallStop.Within (fun f => evBeginLoop th (evArgs num s k i) s.mw = .error f)
        fun s' => Begins th q s s' (evArgs num s k i)) := by
  induction k generalizing i m s with
  | zero => exact ⟨rfl, ⟨rfl, _, rfl⟩, rfl⟩
  | succ k ih =>
      refine ((evBeginTurn_meets num i hi hq).imp_error ?_).bind ?_
      · rintro (f | s') he
        · obtain ⟨a, ha, hloop⟩ := he
          rw [evArgs, ha]
          exact hloop _
        · obtain ⟨hnone, hmw, xs, hlua⟩ := he
          rw [evArgs, hnone]
          exact ⟨congrArg Except.ok hmw.symm, xs, hlua⟩
      · rintro (_ | s') ho
        · obtain ⟨a, ha, hbreak⟩ := ho
          obtain ⟨hloop, hnone⟩ := hbreak (evArgs num s k (i + 1))
          rw [evArgs, ha]
          refine ⟨rfl, ⟨hloop, s.lua.stack, ?_⟩, ?_⟩
          · rw [hnone]
            rfl
          · rw [hnone]
            rfl
        · obtain ⟨a, res, ha, htakes⟩ := ho
          have hq' : s'.lua.index (-1) = .table q := by
            rw [htakes.lua]
            exact hq
          have hargs : evArgs num s (k + 1) i = a :: evArgs num s' k (i + 1) := by
            rw [evArgs, ha, htakes.evArgs]
          rw [hargs]
          refine ((ih (i + 1) (m + 1) (Nat.succ_pos i) hq').imp ?_).imp_error ?_
          · rintro r ⟨hstack, hbegins, hm⟩
            rw [htakes.lua] at hstack
            refine ⟨hstack, htakes.begins hbegins, ?_⟩
            rw [hm, htakes.accepted, List.length_cons]
            omega
          · rintro (f | s'') he
            · exact (htakes.loop _).trans he
            · exact htakes.begins he

end

/-! ## The calls -/

/-- The values that a function returns: so many from the top. -/
def results (r : LuaWorker × Nat) : List (LuaObj LbindFn) :=
  r.1.lua.stack.drop (r.1.lua.stack.length - r.2)

theorem results_push (L : LbindState) (x : LuaObj LbindFn) (w : MwWorker) :
    results (⟨L.push x, w⟩, 1) = [x] := by
  simp [results, push, withStack]

theorem lbindCheckregvalue_meets (L : LbindState) (field emsg : String) :
    Meets (lbindCheckregvalue L field emsg) (fun L' => ∃ p, L' = L.above [.lightuserdata p])
      (fun e => ∃ xs, e.2 = L.withStack xs) := by
  have hget : (L.above [.string field]).gettable luaRegistryindex
      = .ok (L.above [L.tables L.registry (.string field)]) :=
    gettable_eq L [] (index_registry _)
  have htop : (L.above [L.tables L.registry (.string field)]).index (-1)
      = L.tables L.registry (.string field) := above_index_top L [] _
  rw [lbindCheckregvalue, push_eq, hget, luaBind_ok, htop]
  cases hv : L.tables L.registry (.string field) with
  | lightuserdata p => exact ⟨p, rfl⟩
  | _ => exact ⟨_, rfl⟩

section
variable {cstr : Addr → String} (num : LuaObj LbindFn → Option Int) (names : LlkNames cstr)
  {s : LuaWorker} {w v t : Nat} {th : Addr}

/-- What `ev_begin` leaves of Lua, the thread having its variables in `t`: a new
table for what was accepted. -/
def Began (L L' : LbindState) (t : Nat) (l : List (Addr × Addr)) : Prop :=
  ∃ xs, L' = ((L.addTable.write t (.string llkResSockTable) (.table L.next)).writes L.next
    (sockEntries l)).withStack xs

theorem Began.of_begins {L : LbindState} {xs : List (LuaObj LbindFn)} {s' : LuaWorker}
    {socks : List (Addr × BitVec 32)}
    (hL : L = (s.lua.addTable.write t (.string llkResSockTable) (.table s.lua.next)).withStack xs)
    (h : Begins th s.lua.next ⟨L, s.mw⟩ s' socks) :
    Began s.lua s'.lua t (accepted s.mw th socks) := by
  obtain ⟨-, ys, hlua⟩ := h
  refine ⟨ys, ?_⟩
  rw [hlua, hL, writes_stack]
  rfl

/-- The table of sockets is made, and is the thread's from now on: its variables have the
new one in place of any before. -/
theorem newSockTable_eq (h : VarsAt s.lua w v) (hhas : HasVars s.lua s.lua.thread v t)
    (ys : List (LuaObj LbindFn)) :
    (lbindSetThreadLocalVars cstr (s.lua.above ys).newtable [(names.resSockTable, .stack (-1))]).1
      = (s.lua.addTable.write t (.string llkResSockTable) (.table s.lua.next)).withStack
          (s.lua.stack ++ (ys ++ [.table s.lua.next])) := by
  have hold := h.old
  have hkeep : ∀ u, u < s.lua.next → s.lua.addTable.tables u = s.lua.tables u := fun u hu =>
    Function.update_of_ne (Nat.ne_of_lt hu) _ _
  have hhas' : HasVars (s.lua.addTable.above (ys ++ [.table s.lua.next])) s.lua.thread v t := by
    refine ⟨?_, ?_⟩
    · exact (congrFun (hkeep _ hold.1) _).trans hhas.vars
    · exact (congrFun (hkeep _ hold.2.2) _).trans hhas.own
  have hok : ∀ a ∈ [(names.resSockTable, VaArg.stack (-1))],
      a.2.Ok (s.lua.addTable.above (ys ++ [.table s.lua.next])) := by
    intro a ha
    rw [List.mem_singleton.mp ha]
    refine ⟨by decide, by decide, ?_⟩
    simp only [gettop, above, withStack, List.length_append, List.length_singleton]
    omega
  rw [above_newtable, lbindSetThreadLocalVars_eq cstr hhas' hok]
  simp only [List.map_cons, List.map_nil, VaArg.value, above_index_top, names.resSockTable_eq]
  rfl

/-- The worker has been told of the sockets `socks`, and so has Lua. -/
structure EvBegun (s s' : LuaWorker) (t : Nat) (th : Addr) (complete : Bool) : Prop where
  worker : Artorias.lcfSocketEvBegin s.mw th (evSocks num s) complete = .ok s'.mw
  lua : Began s.lua s'.lua t (accepted s.mw th (evSocks num s))

/-- `ev_begin` called by a thread that has its variables: for the worker it is the call with
the sockets on the stack, and the thread's table is of those that are accepted. An error of
Lua comes before all that, or at an argument. -/
theorem evBegin_meets (h : VarsAt s.lua w v) (hhas : HasVars s.lua s.lua.thread v t)
    (hth : s.lua.tables t (.string llkThread) = .lightuserdata (some th)) :
    Meets (lcfSocketEvBegin num names s)
      (fun r => EvBegun num s r.1 t th true
        ∧ results r = [.integer (accepted s.mw th (evSocks num s)).length])
      (CallStop.Within
        (fun f => Artorias.lcfSocketEvBegin s.mw th (evSocks num s) true = .error f)
        fun s' => (s'.mw = s.mw ∧ ∃ xs, s'.lua = s.lua.withStack xs)
          ∨ EvBegun num s s' t th false) := by
  rw [lcfSocketEvBegin]
  have hreg := lbindCheckregvalue_meets s.lua lrkWorkerCtx "no worker ctx"
  cases hctx : lbindCheckregvalue s.lua lrkWorkerCtx "no worker ctx" with
  | error e =>
      rw [hctx] at hreg
      exact .inl ⟨rfl, hreg⟩
  | ok L1 =>
      rw [hctx] at hreg
      obtain ⟨p, rfl⟩ := hreg
      have hget : (lbindGetThreadLocalVars cstr (s.lua.above [.lightuserdata p]) [names.thread]).1
          = s.lua.above [.lightuserdata p, .lightuserdata (some th)] := by
        have hhas' : HasVars (s.lua.above [.lightuserdata p]) s.lua.thread v t := hhas.withStack _
        have hvar : (s.lua.above [.lightuserdata p]).tables t (.string (cstr names.thread))
            = .lightuserdata (some th) := by
          rw [names.thread_eq]
          exact hth
        rw [lbindGetThreadLocalVars_eq cstr hhas', List.map_singleton, List.headD_cons, hvar,
          above_above]
        rfl
      have hthread :
          ((s.lua.above [.lightuserdata p, .lightuserdata (some th)]).index (-1)).toUserdata
          = some th := by
        rw [← List.singleton_append, above_index_top]
        rfl
      rw [ofApi, callBind_ok]
      dsimp only
      rw [hget, hthread, newSockTable_eq names h hhas]
      generalize hL :
        (s.lua.addTable.write t (.string llkResSockTable) (.table s.lua.next)).withStack
        (s.lua.stack ++ ([.lightuserdata p, .lightuserdata (some th)] ++ [.table s.lua.next])) = L
      have hsocks : evSocks num ⟨L, s.mw⟩ = evSocks num s := by
        refine evSocks_above (fun i _ => by rw [← hL]; rfl) rfl fun y hy => ?_
        rw [List.mem_append, List.mem_pair, List.mem_singleton] at hy
        rcases hy with (rfl | rfl) | rfl
        · exact ⟨by simp, rfl⟩
        · exact ⟨by simp, rfl⟩
        · exact ⟨by simp, rfl⟩
      have hq : L.index (-1) = .table s.lua.next := by
        rw [← hL, ← List.append_assoc]
        exact above_index_top (s.lua.withStack _) [] _
      rw [evSocks] at hsocks
      refine (checkinteger_meets.imp_error ?_).bind fun n hn => ?_
      · rintro e ⟨x, rfl, hnone⟩
        dsimp only at hsocks hnone
        rw [hnone] at hsocks
        dsimp only at hsocks
        refine .inr ⟨?_, (L.push x).stack, ?_⟩
        · rw [← hsocks]
          rfl
        · rw [← hsocks, ← hL]
          rfl
      · dsimp only at hsocks hn
        rw [hn] at hsocks
        dsimp only at hsocks
        refine ((evBeginTurns_meets num (cInt n).toNat 1 0 Nat.one_pos hq).imp_error ?_).bind ?_
        · rw [hsocks]
          rintro (f | s') he
          · dsimp only [CallStop.Within] at he ⊢
            rw [Artorias.lcfSocketEvBegin, he]
            rfl
          · refine .inr ⟨?_, .of_begins hL.symm he⟩
            rw [Artorias.lcfSocketEvBegin, he.1]
            rfl
        · rw [hsocks]
          rintro ⟨s', m⟩ ⟨hstack, hbegins, hm⟩
          dsimp only at hstack hm ⊢
          have hbegan := Began.of_begins hL.symm hbegins
          have hcall : Artorias.lcfSocketEvBegin s.mw th (evSocks num s) true
              = toLoopSocks s'.mw (some th) := by
            rw [Artorias.lcfSocketEvBegin, hbegins.1]
            rfl
          cases hmode : toLoopSocks s'.mw (some th) with
          | error f => exact hcall.trans hmode
          | ok w' =>
              obtain ⟨xs, hxs⟩ := hbegan
              refine ⟨⟨hcall.trans hmode, _, by rw [hxs]; rfl⟩, ?_⟩
              rw [Nat.zero_add] at hm
              rw [← hm]
              exact results_push ..

/-- What has been registered for `T`: the table of `l`. -/
def Registered (L : LbindState) (T : Nat) (l : List (Addr × Addr)) : Prop :=
  ∃ v t q, HasVars L T v t ∧ L.tables t (.string llkResSockTable) = .table q
    ∧ L.tables q = sockTable l

theorem pushSocket_eq {L : LbindState} {l : List (Addr × Addr)} (h : Registered L L.thread l)
    (htop : 3 ≤ L.gettop) :
    ∃ q, pushSocket names L = .ok (L.above [.table q, L.index 2, sockTable l (L.index 3)]) := by
  obtain ⟨v, t, q, hhas, hq, htable⟩ := h
  have hget : (lbindGetThreadLocalVars cstr L [names.resSockTable]).1 = L.above [.table q] := by
    rw [lbindGetThreadLocalVars_eq cstr hhas, List.map_singleton, List.headD_cons,
      names.resSockTable_eq, hq]
  have hbelow : ∀ ys, (L.above ys).index 2 = L.index 2 ∧ (L.above ys).index 3 = L.index 3 :=
    fun ys =>
    ⟨above_index L ys (by decide) (by omega), above_index L ys (by decide) (by omega)⟩
  have hpush : ((L.above [.table q]).pushvalue 2).pushvalue 3
      = L.above ([.table q, L.index 2] ++ [L.index 3]) := by
    have hfirst : (L.above [.table q]).pushvalue 2 = L.above [.table q, L.index 2] := by
      rw [pushvalue, (hbelow _).1, above_push]
      rfl
    rw [hfirst, pushvalue, (hbelow _).2, above_push]
  have hplace : (L.above ([.table q, L.index 2] ++ [L.index 3])).index (-3) = .table q :=
    above_index_neg L [] [L.index 2, L.index 3] _ rfl (by decide)
  refine ⟨q, ?_⟩
  rw [pushSocket, hget, hpush, gettable_eq L _ hplace, htable]
  rfl

/-- Resumed for a resource, `ev_wait` returns the type, the socket that has been registered
for it, and what it is ready for if it is no error. -/
theorem kSocketEvWait_results {l : List (Addr × Addr)} (h : Registered s.lua s.lua.thread l)
    {timeout io : LuaObj LbindFn} {type : Int} {res : Addr}
    (hstack : s.lua.stack = [timeout, .integer type, .lightuserdata (some res), io])
    (htype : type = lasSResumeIo ∨ type = lasSResumeIoError) :
    ∃ r, kSocketEvWait num names s = .ok r
      ∧ results r = [.integer type, lastSocket l res,
        if type = lasSResumeIo then io else .nil] := by
  have hindex : s.lua.index 2 = .integer type ∧ s.lua.index 3 = .lightuserdata (some res)
      ∧ s.lua.index 4 = io := by
    simp [index, luaRegistryindex, hstack]
  obtain ⟨h2, h3, h4⟩ := hindex
  have htop : s.lua.gettop = 4 := by
    rw [gettop, hstack]
    rfl
  obtain ⟨q, hpush⟩ := pushSocket_eq names h (by omega)
  rw [h2, h3, sockTable_eq] at hpush
  have hcheck : s.checkinteger num 2 = .ok type := by
    rw [LuaWorker.checkinteger, h2]
    rfl
  have hio : (s.lua.above [.table q, .integer type, lastSocket l res]).index 4 = io := by
    rw [above_index _ _ (by decide) (by omega), h4]
  rw [kSocketEvWait, hcheck, callBind_ok]
  rcases htype with rfl | rfl
  · have hint : cInt lasSResumeIo = lasSResumeIo := rfl
    refine ⟨_, by rw [if_pos hint, hpush, ofApi, callBind_ok], ?_⟩
    rw [if_pos rfl, pushvalue, hio, above_push]
    simp [results, hstack, above, withStack]
  · have hint : cInt lasSResumeIoError = lasSResumeIoError := rfl
    have hne : ¬cInt lasSResumeIoError = lasSResumeIo := by decide
    refine ⟨_, by rw [if_neg hne, if_pos hint, hpush, ofApi, callBind_ok], ?_⟩
    have hother : ¬lasSResumeIoError = lasSResumeIo := by decide
    rw [if_neg hother, LuaWorker.push, above_push]
    simp [results, hstack, above, withStack]

end

end SocketEv

end Artorias
