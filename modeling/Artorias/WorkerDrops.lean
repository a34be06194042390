import Artorias.ResOwner

/-!
# What the scripts close

Between two events, and between two connections, a script runs. `Touches` says
what becomes of the resources meanwhile: those of the sockets that are closed or
collected are gone, the others are there as they were, and what is new has a
new number. Nothing is assumed of the state.
-/

namespace Artorias

/-! ## What a script closes -/

/-- The userdata that are closed or collected. -/
def LuaAct.drops : LuaAct → List Addr
  | .close u | .gc u => [u]
  | .getMsock _ | .socketNew _ _ _ | .evBegin _ _ | .evEnd => []

def LuaRun.drops (run : LuaRun) : List Addr := run.acts.flatMap LuaAct.drops

/-- Lua makes the thread, and `cur_tid` does not come to -1. -/
def Conn.Makes (c : Conn) (curTid : BitVec 32) : Prop := c.lthread = true ∧ curTid + 1 ≠ -1

instance (c : Conn) (curTid : BitVec 32) : Decidable (c.Makes curTid) := by
  unfold Conn.Makes
  infer_instance

/-- The same for the calls into Lua in `handle_accept`. -/
def connDrops (lua : Lua) : Nat → BitVec 32 → List Conn → List Addr
  | _, _, [] => []
  | turn, curTid, c :: conns =>
      (lua turn []).gc
        ++ if c.Makes curTid then
            (lua (turn + 1) []).drops ++ connDrops lua (turn + 2) (curTid + 1) conns
          else connDrops lua (turn + 1) (if c.lthread then curTid + 1 else curTid) conns

/-- The same for a resume in `handle_fd_read`, `handle_fd_write` or
`handle_fd_error`. -/
def fdDrops (lua : Lua) (w : MwWorker) (res : Addr) (args : LuaStack) : List Addr :=
  match (w.ress res).bind AsThreadRes.th with
  | none => []
  | some th => if (w.tm.threads th).status = .stop then [] else (lua w.turn args).drops

/-- What is said of an event, by what `process_io` does for it: nothing or `close`,
`handle_accept`, or a resume with the arguments that it pushes. -/
def EpollEvent.choose {β : Type} (w : MwWorker) (e : EpollEvent) (idle accept : β)
    (resume : LuaStack → β) : β :=
  if e.has epollErr || e.has epollHup || !(e.has epollIn || e.has epollOut) then
    if e.ptr = w.cfdRes then idle
    else resume [.integer lasSResumeIoError, .lightuserdata (some e.ptr), .integer e.errno]
  else if e.ptr = w.cfdRes then accept
  else if e.has epollIn then
    resume [.integer lasSResumeIo, .lightuserdata (some e.ptr), .integer lasSReadyToInput]
  else if e.has epollOut then
    resume [.integer lasSResumeIo, .lightuserdata (some e.ptr), .integer lasSReadyToOutput]
  else idle

theorem dispatch_choose {β : Type} {lua : Lua} {k : Nat} {w : MwWorker} {e : EpollEvent}
    {P : β → WRun MwWorker → Prop} {idle accept : β} {resume : LuaStack → β}
    (hclose : e.ptr = w.cfdRes → P idle (.ok (w.close w.cfd))) (hidle : P idle (.ok w))
    (haccept : P accept (handleAccept lua k w e.conns))
    (hresume : ∀ args, P (resume args) (handleFd lua k w e.ptr args)) :
    P (e.choose w idle accept resume) (dispatch lua k w e) := by
  unfold dispatch EpollEvent.choose
  split
  · unfold handleFdError
    split
    · exact hclose ‹_›
    · exact hresume _
  · split
    · exact haccept
    · split
      · exact hresume _
      · split
        · exact hresume _
        · exact hidle

/-- The userdata that are closed or collected for one event, whichever handler it is given
to. -/
def eventDrops (lua : Lua) (w : MwWorker) (e : EpollEvent) : List Addr :=
  e.choose w [] (connDrops lua w.turn w.curTid e.conns) (fdDrops lua w e.ptr)

/-- The socket of `u` has the resource `a`, which goes when it is closed. -/
def HoldsRes (w : MwWorker) (u a : Addr) : Prop := ∃ n, Has w (.userdata u) a n

/-! ## What a piece of the loop does to the resources -/

/-- `w'` is left after `i` calls into Lua and `j` new tids, in which the userdata in `D`
have been closed or collected. Resources that none of these held are the same as in `w`. -/
structure Touches (w w' : MwWorker) (D : List Addr) (i : Nat) (j : BitVec 32) : Prop where
  turn : w'.turn = w.turn + i
  curTid : w'.curTid = w.curTid + j
  cfdRes : w'.cfdRes = w.cfdRes
  next : w.next ≤ w'.next
  /-- A resource in use that is not dropped stays as it is, and gets no other
  userdata. -/
  keeps : ∀ a r, w.ress a = some r → (∀ u ∈ D, ¬HoldsRes w u a) →
    (∃ r', w'.ress a = some r' ∧ r'.number = r.number ∧ r'.th = r.th)
      ∧ ∀ u, HoldsRes w' u a → HoldsRes w u a
  /-- What is there and was not is newer than anything before. -/
  fresh : ∀ a r', w'.ress a = some r' →
    (∃ r, w.ress a = some r ∧ r.number = r'.number) ∨ w.next ≤ r'.number ∧ r'.number < w'.next
  stays : ∀ u a, u ∉ D → HoldsRes w u a → HoldsRes w' u a
  dropped : ∀ u a, u ∈ D → HoldsRes w u a → ∀ r', w'.ress a = some r' → w.next ≤ r'.number

namespace Touches

variable {w w' w'' : MwWorker} {D D' : List Addr} {i i' : Nat} {j j' : BitVec 32}

theorem trans (h : Touches w w' D i j) (h' : Touches w' w'' D' i' j') :
    Touches w w'' (D ++ D') (i + i') (j + j') := by
  refine ⟨by rw [h'.turn, h.turn, Nat.add_assoc], by rw [h'.curTid, h.curTid, BitVec.add_assoc],
    h'.cfdRes.trans h.cfdRes, Nat.le_trans h.next h'.next, fun a r hr hD => ?_,
      fun a r'' hr'' => ?_,
    fun u a hu hua => ?_, fun u a hu hua r'' hr'' => ?_⟩
  · obtain ⟨⟨r', hr', hn', hth'⟩, hback⟩ :=
      h.keeps a r hr fun u hu => hD u (List.mem_append_left _ hu)
    obtain ⟨⟨r'', hr'', hn'', hth''⟩, hback'⟩ := h'.keeps a r' hr' fun u hu hua =>
      hD u (List.mem_append_right _ hu) (hback u hua)
    exact ⟨⟨r'', hr'', hn''.trans hn', hth''.trans hth'⟩, fun u hu => hback u (hback' u hu)⟩
  · rcases h'.fresh a r'' hr'' with ⟨r', hr', hn'⟩ | hnew
    · rw [← hn']
      exact (h.fresh a r' hr').imp_right fun hnew =>
        ⟨hnew.1, Nat.lt_of_lt_of_le hnew.2 h'.next⟩
    · exact .inr ⟨Nat.le_trans h.next hnew.1, hnew.2⟩
  · rw [List.mem_append, not_or] at hu
    exact h'.stays u a hu.2 (h.stays u a hu.1 hua)
  · by_cases hD : u ∈ D
    · rcases h'.fresh a r'' hr'' with ⟨r', hr', hn'⟩ | hnew
      · rw [← hn']
        exact h.dropped u a hD hua r' hr'
      · exact Nat.le_trans h.next hnew.1
    · have hD' := (List.mem_append.mp hu).resolve_left hD
      exact Nat.le_trans h.next (h'.dropped u a hD' (h.stays u a hD hua) r'' hr'')

theorem old (h : Touches w w' D i j) (hold : ∀ a r, w.ress a = some r → r.number < w.next) :
    ∀ a r, w'.ress a = some r → r.number < w'.next := by
  intro a r' hr'
  rcases h.fresh a r' hr' with ⟨r, hr, hn⟩ | hnew
  · rw [← hn]
    exact Nat.lt_of_lt_of_le (hold a r hr) h.next
  · exact hnew.2

end Touches

/-! ## Functions that leave the resources and the sockets -/

def AnyFault (_ : WFault) : Prop := True

/-- What `StillDenotes` looks at. -/
def AsThreadRes.shape (r : AsThreadRes) : Nat × Option Addr := (r.number, r.th)

structure SameRess (w w' : MwWorker) : Prop where
  turn : w'.turn = w.turn
  curTid : w'.curTid = w.curTid
  cfdRes : w'.cfdRes = w.cfdRes
  next : w.next ≤ w'.next
  socks : ∀ u a, HoldsRes w' u a ↔ HoldsRes w u a
  ress : ∀ a, (w'.ress a).map AsThreadRes.shape = (w.ress a).map AsThreadRes.shape

namespace SameRess

variable {w w' w'' : MwWorker}

theorem refl (w : MwWorker) : SameRess w w :=
  ⟨rfl, rfl, rfl, Nat.le_refl _, fun _ _ => .rfl, fun _ => rfl⟩

theorem trans (h : SameRess w w') (h' : SameRess w' w'') : SameRess w w'' :=
  ⟨h'.turn.trans h.turn, h'.curTid.trans h.curTid, h'.cfdRes.trans h.cfdRes,
    Nat.le_trans h.next h'.next, fun u a => (h'.socks u a).trans (h.socks u a),
    fun a => (h'.ress a).trans (h.ress a)⟩

theorem setRes {a : Addr} {r r' : AsThreadRes} (hr : w.ress a = some r) (h : r'.shape = r.shape) :
    SameRess w (w.setRes a r') := by
  refine { refl w with ress := fun b => ?_ }
  dsimp only [MwWorker.setRes]
  by_cases hb : b = a
  · subst hb
    rw [Function.update_self, hr]
    exact congrArg some h
  · rw [Function.update_of_ne hb]

theorem watch (w : MwWorker) (fd : Int) (ev : BitVec 32) (a : Addr) :
    SameRess w (w.watch fd ev a) := { refl w with }

theorem setThread (w : MwWorker) (th : Addr) (t : AsThread) : SameRess w (w.setThread th t) :=
  { refl w with }

theorem noteWait (w : MwWorker) (th a : Addr) (k : Kont) : SameRess w (noteWait w th a k) :=
  { refl w with }

theorem res (h : SameRess w w') {a : Addr} {r : AsThreadRes} (hr : w.ress a = some r) :
    ∃ r', w'.ress a = some r' ∧ r'.number = r.number ∧ r'.th = r.th := by
  have ha := h.ress a
  rw [hr] at ha
  obtain ⟨r', hr', he⟩ := Option.map_eq_some_iff.mp ha
  simp only [AsThreadRes.shape, Prod.mk.injEq] at he
  exact ⟨r', hr', he⟩

theorem res_of (h : SameRess w w') {a : Addr} {r' : AsThreadRes} (hr : w'.ress a = some r') :
    ∃ r, w.ress a = some r ∧ r.number = r'.number ∧ r.th = r'.th := by
  have ha := h.ress a
  rw [hr] at ha
  obtain ⟨r, hr, he⟩ := Option.map_eq_some_iff.mp ha.symm
  simp only [AsThreadRes.shape, Prod.mk.injEq] at he
  exact ⟨r, hr, he⟩

theorem touches (h : SameRess w w') : Touches w w' [] 0 0 := by
  refine ⟨by rw [h.turn, Nat.add_zero], by simp [h.curTid], h.cfdRes, h.next,
    fun a r hr _ => ⟨h.res hr, fun u => (h.socks u a).mp⟩, fun a r' hr' => ?_,
    fun u a _ => (h.socks u a).mpr, fun _ _ hu => nomatch hu⟩
  obtain ⟨r, hr, hn, -⟩ := h.res_of hr'
  exact .inl ⟨r, hr, hn⟩

end SameRess

theorem Touches.same {w w1 w' : MwWorker} {D : List Addr} {i : Nat} {j : BitVec 32}
    (h : Touches w w1 D i j) (h' : SameRess w1 w') : Touches w w' D i j := by
  simpa using h.trans h'.touches

theorem SameRess.then {w w1 w' : MwWorker} {D : List Addr} {i : Nat} {j : BitVec 32}
    (h : SameRess w w1) (h' : Touches w1 w' D i j) : Touches w w' D i j := by
  simpa using h.touches.trans h'

theorem close_sameRess (w : MwWorker) (fd : Int) : SameRess w (w.close fd) := by
  unfold MwWorker.close
  split
  · exact .refl w
  · exact { SameRess.refl w with }

theorem res_any (w : MwWorker) (a : Addr) :
    Meets (w.res a) (fun r => w.ress a = some r) AnyFault :=
  (w.res_meets a).imp_error fun _ _ => trivial

theorem thread_any (w : MwWorker) (th : Addr) :
    Meets (w.thread th) (fun t => t = w.tm.threads th) AnyFault :=
  ((w.thread_meets th).imp fun _ h => h.1).imp_error fun _ _ => trivial

theorem asthreadResEvAdd_sameRess (w : MwWorker) (a : Addr) (ev : BitVec 32) :
    Meets (asthreadResEvAdd w a ev) (SameRess w) AnyFault := by
  refine (res_any w a).bind fun r hr => ?_
  split
  · exact (SameRess.watch w r.d _ a).trans (.setRes hr rfl)
  · exact .refl w

theorem asthreadResEvDel_sameRess (w : MwWorker) (a : Addr) :
    Meets (asthreadResEvDel w a) (SameRess w) AnyFault := by
  refine (res_any w a).bind fun r hr => ?_
  split
  · exact .refl w
  · split
    · exact (SameRess.watch w r.d _ a).trans (.setRes hr rfl)
    · exact .refl w

theorem asthreadRemoveResFromEpfd_sameRess (w : MwWorker) (th : Addr) :
    Meets (asthreadRemoveResFromEpfd w th) (SameRess w) AnyFault :=
  (thread_any w th).bind fun _ _ => Meets.foldlM (I := fun _ => SameRess w)
    (fun a _ w1 h1 => (asthreadResEvDel_sameRess w1 a).imp fun _ h2 => h1.trans h2) (.refl w)

theorem thRemoveResFromEpfd_sameRess (w : MwWorker) (th : Addr) :
    Meets (thRemoveResFromEpfd w th) (SameRess w) AnyFault := by
  refine (thread_any w th).bind fun t _ => ?_
  split
  · exact asthreadRemoveResFromEpfd_sameRess w th
  · exact .refl w

theorem evBeginLoop_sameRess (th : Addr) (socks : List (Addr × BitVec 32)) (w : MwWorker) :
    Meets (evBeginLoop th socks w) (SameRess w) AnyFault := by
  induction socks generalizing w with
  | nil => exact .refl w
  | cons s socks ih =>
      obtain ⟨u, ev⟩ := s
      unfold evBeginLoop
      split
      · exact trivial
      · split
        · exact .refl w
        · split
          · exact trivial
          · rename_i r hr
            split
            · exact .refl w
            · have hset : SameRess w (w.setRes _ { r with status := .ev }) := .setRes hr rfl
              refine (asthreadResEvAdd_sameRess _ _ ev).bind fun w2 h2 =>
                (ih w2).imp fun w3 h3 => ?_
              exact (hset.trans h2).trans h3

theorem any_meets {α : Type} (x : WRun α) : Meets x (fun _ => True) AnyFault := by
  cases x <;> exact trivial

theorem addToPool_sameRess (k : Nat) (w : MwWorker) (th p : Addr) :
    Meets (addToPool k w th p) (SameRess w) AnyFault :=
  (any_meets _).bind fun _ _ => { SameRess.refl w with }

theorem delFromPool_sameRess (k : Nat) (w : MwWorker) (th : Addr) :
    Meets (delFromPool k w th) (SameRess w) AnyFault :=
  (any_meets _).bind fun _ _ => { SameRess.refl w with }

theorem asthreadThToStop_sameRess (k : Nat) (w : MwWorker) (th : Addr) :
    Meets (asthreadThToStop k w th) (SameRess w) AnyFault := by
  refine (thread_any w th).bind fun t _ => (any_meets _).bind fun s _ => ?_
  dsimp only
  split
  · exact trivial
  · exact { SameRess.refl w with }

theorem thYieldForIo_sameRess (k : Nat) (w : MwWorker) (th : Addr) (T : LuaStack) (now : Int)
    (kont : Kont) : Meets (thYieldForIo k w th T now kont) (SameRess w) AnyFault := by
  refine thYieldForIo_meets (Q := SameRess w) trivial (fun et => ?_) fun w1 a ev h1 _ => ?_
  · refine (thread_any w th).bind fun t ht => (addToPool_sameRess k _ th _).imp fun w1 h1 => ?_
    exact (SameRess.setThread w th _).trans h1
  · refine (asthreadResEvAdd_sameRess _ a ev).imp fun w2 h2 => ?_
    exact h1.trans ((SameRess.noteWait w1 th a kont).trans h2)

theorem afterResume_sameRess (k : Nat) (w : MwWorker) (th : Addr) (run : LuaRun) :
    Meets (afterResume k w th run) (SameRess w) AnyFault := by
  refine afterResume_meets (thYieldForIo_sameRess k w th · _ ·) (fun T => ?_)
    (asthreadThToStop_sameRess k w th)
  refine (thread_any w th).bind fun t _ => (addToPool_sameRess k _ th _).imp fun w1 h1 => ?_
  exact (SameRess.setThread w th _).trans h1

/-! ## Sockets that are closed or made -/

theorem HoldsRes.unique {w : MwWorker} {u a b : Addr} (h : HoldsRes w u a) (h' : HoldsRes w u b) :
    a = b := by
  obtain ⟨n, hn⟩ := h
  obtain ⟨m, hm⟩ := h'
  rw [Has, show w.socks u = _ from hn] at hm
  simp only [Option.some.injEq, LmSocket.mk.injEq] at hm
  exact hm.1

/-- A socket that is closed or collected holds no resource any more, and the block that it
held is gone; nothing else is. -/
theorem Touches.drop {w w1 w' : MwWorker} {u a : Addr} (h : SameRess w w1)
    (hu : HoldsRes w u a) (hress : w'.ress = Function.update w1.ress a none)
    (hsocks : ∀ v b, HoldsRes w' v b ↔ v ≠ u ∧ HoldsRes w1 v b) (hturn : w'.turn = w1.turn)
    (htid : w'.curTid = w1.curTid) (hcfd : w'.cfdRes = w1.cfdRes) (hnext : w'.next = w1.next) :
    Touches w w' [u] 0 0 := by
  refine ⟨hturn.trans h.turn, ?_, hcfd.trans h.cfdRes, hnext ▸ h.next, fun b r hr hD => ⟨?_, ?_⟩,
    ?_, ?_, ?_⟩
  · simp [htid, h.curTid]
  · have hb : b ≠ a := by
      rintro rfl
      exact hD u (.head _) hu
    rw [hress, Function.update_of_ne hb]
    exact h.res hr
  · exact fun v hv => (h.socks v b).mp ((hsocks v b).mp hv).2
  · intro b r' hr'
    obtain ⟨r, hr, hn, -⟩ := h.res_of (of_update_none hress hr').2
    exact .inl ⟨r, hr, hn⟩
  · intro v b hv hvb
    exact (hsocks v b).mpr ⟨fun he => hv (he ▸ .head _), (h.socks v b).mpr hvb⟩
  · intro v b hv hvb r' hr'
    obtain rfl := List.mem_singleton.mp hv
    obtain rfl := hvb.unique hu
    rw [hress, Function.update_self] at hr'
    cases hr'

/-- There is a new resource, with a number that was not given before, and perhaps a socket
that holds it. -/
theorem Touches.create {w w1 : MwWorker} (w' : MwWorker) {D : List Addr} {i : Nat} {j : BitVec 32}
    (j' : BitVec 32) {a : Addr} (h : Touches w w1 D i j) (ha : w1.ress a = none)
    (hress : ∀ b, b ≠ a → (w'.ress b).map AsThreadRes.shape = (w1.ress b).map AsThreadRes.shape)
    (hnew : ∀ r', w'.ress a = some r' → w.next ≤ r'.number ∧ r'.number < w'.next)
    (hback : ∀ v b, HoldsRes w' v b → HoldsRes w1 v b ∨ b = a)
    (hsocks : ∀ v b, HoldsRes w1 v b → HoldsRes w' v b) (hturn : w'.turn = w1.turn)
    (htid : w'.curTid = w1.curTid + j') (hcfd : w'.cfdRes = w1.cfdRes) (hnext : w1.next ≤ w'.next) :
    Touches w w' D i (j + j') := by
  have hof : ∀ b r', w'.ress b = some r' → b ≠ a →
      ∃ r, w1.ress b = some r ∧ r.number = r'.number := by
    intro b r' hr' hb
    have hb' := hress b hb
    rw [hr'] at hb'
    obtain ⟨r, hr, he⟩ := Option.map_eq_some_iff.mp hb'.symm
    simp only [AsThreadRes.shape, Prod.mk.injEq] at he
    exact ⟨r, hr, he.1⟩
  refine ⟨hturn.trans h.turn, by rw [htid, h.curTid, BitVec.add_assoc], hcfd.trans h.cfdRes,
    Nat.le_trans h.next hnext, fun b r hr hD => ?_, fun b r' hr' => ?_,
    fun v b hv hvb => hsocks v b (h.stays v b hv hvb), fun v b hv hvb r' hr' => ?_⟩
  · obtain ⟨⟨r1, hr1, hn1, hth1⟩, hback1⟩ := h.keeps b r hr hD
    have hb : b ≠ a := by
      rintro rfl
      rw [ha] at hr1
      cases hr1
    have hb' := hress b hb
    rw [hr1] at hb'
    obtain ⟨r', hr', he⟩ := Option.map_eq_some_iff.mp hb'
    simp only [AsThreadRes.shape, Prod.mk.injEq] at he
    exact ⟨⟨r', hr', he.1.trans hn1, he.2.trans hth1⟩, fun v hv =>
      hback1 v ((hback v b hv).resolve_right hb)⟩
  · by_cases hb : b = a
    · subst hb
      exact .inr (hnew r' hr')
    · obtain ⟨r1, hr1, hn1⟩ := hof b r' hr' hb
      rw [← hn1]
      exact (h.fresh b r1 hr1).imp_right fun hlt => ⟨hlt.1, Nat.lt_of_lt_of_le hlt.2 hnext⟩
  · by_cases hb : b = a
    · subst hb
      exact (hnew r' hr').1
    · obtain ⟨r1, hr1, hn1⟩ := hof b r' hr' hb
      rw [← hn1]
      exact h.dropped v b hv hvb r1 hr1

theorem unlinkRes_sameRess (w : MwWorker) (a : Addr) :
    Meets (unlinkRes w a) (SameRess w) AnyFault := by
  refine (res_any w a).bind fun r _ => ?_
  split
  · exact .refl w
  · exact (thread_any w _).bind fun t _ => SameRess.setThread w _ _

theorem closeRes_sameRess (w : MwWorker) (a : Addr) :
    Meets (closeRes w a) (SameRess w) AnyFault := by
  refine (res_any w a).bind fun r _ => ?_
  split
  · exact close_sameRess w _
  · exact .refl w

theorem lcfSocketClose_touches (w : MwWorker) (u : Addr) :
    Meets (lcfSocketClose w u)
      (fun w' => Touches w w' [u] 0 0 ∧ ∀ a, ¬HoldsRes w' u a) AnyFault := by
  -- If there is nothing to close.
  have hidle : (∀ a, ¬HoldsRes w u a) → Touches w w [u] 0 0 ∧ ∀ a, ¬HoldsRes w u a := fun hu =>
    ⟨{ (SameRess.refl w).touches with
        keeps := fun a r hr _ => (SameRess.refl w).touches.keeps a r hr fun _ hv => nomatch hv
        stays := fun _ _ _ h => h
        dropped := fun v a hv hva => by
          obtain rfl := List.mem_singleton.mp hv
          exact absurd hva (hu a) }, hu⟩
  unfold lcfSocketClose
  split
  · exact trivial
  · rename_i sock hsock
    obtain ⟨res, type, n⟩ := sock
    cases res with
    | none =>
        refine hidle fun a ha => ?_
        obtain ⟨m, hm⟩ := ha
        rw [Has, hsock] at hm
        cases hm
    | some a =>
        cases type with
        | system =>
            refine hidle fun a ha => ?_
            obtain ⟨m, hm⟩ := ha
            rw [Has, hsock] at hm
            cases hm
        | custom =>
            have hua : HoldsRes w u a := ⟨n, hsock⟩
            refine (unlinkRes_sameRess w a).bind fun w1 h1 => ?_
            refine (closeRes_sameRess w1 a).bind fun w2 h2 => ?_
            unfold MwWorker.recycleRes
            split
            · exact trivial
            · rename_i r hr
              have hsocks : ∀ v b, HoldsRes
                  (({ w2 with ress := Function.update w2.ress a none }.note
                    (.resRecycle r.number)).setSock
                    u (some ⟨none, .custom, n⟩)) v b ↔ v ≠ u ∧ HoldsRes w2 v b := by
                intro v b
                simp only [HoldsRes, Has, MwWorker.setSock, MwWorker.note]
                by_cases hv : v = u
                · subst hv
                  simp
                · simp [hv]
              exact ⟨.drop (h1.trans h2) hua rfl hsocks rfl rfl rfl rfl,
                fun b hb => ((hsocks u b).mp hb).1 rfl⟩

theorem lcfSocketGc_touches (w : MwWorker) (u : Addr) :
    Meets (lcfSocketGc w u) (fun w' => Touches w w' [u] 0 0) AnyFault := by
  refine (lcfSocketClose_touches w u).bind fun w1 hw1 => ?_
  have hsame : SameRess w1 (w1.setSock u none) := by
    refine { SameRess.refl w1 with socks := fun v a => ?_ }
    by_cases hv : v = u
    · subst hv
      refine iff_of_false ?_ (hw1.2 a)
      simp [HoldsRes, Has, MwWorker.setSock]
    · simp [HoldsRes, Has, MwWorker.setSock, hv]
  exact hw1.1.same hsame

/-- The rule for the steps that set up a new resource at `a`: they change that resource, and
nothing else that is looked at here. -/
theorem linkRes_meets {w : MwWorker} {a th : Addr} {r : AsThreadRes} (hr : w.ress a = some r)
    {f : MwWorker → WRun MwWorker} {Q : MwWorker → Prop}
    (hf : ∀ w' r', w'.turn = w.turn → w'.curTid = w.curTid → w'.cfdRes = w.cfdRes →
      w'.next = w.next →
      w'.socks = w.socks → (∀ b, b ≠ a → w'.ress b = w.ress b) → w'.ress a = some r' →
      r'.number = r.number → Meets (f w') Q AnyFault) :
    Meets (do
      let w ← asthreadResInit w a
      let w ← asthreadResAddToTh w a th
      let w ← asthreadResEvInit w a
      f w) Q AnyFault := by
  have hset : ∀ (w : MwWorker) r', (w.setRes a r').ress a = some r' := fun w r' =>
    Function.update_self ..
  have hother : ∀ (w : MwWorker) r' b, b ≠ a → (w.setRes a r').ress b = w.ress b := fun w r' b hb =>
    Function.update_of_ne hb ..
  simp only [asthreadResInit, MwWorker.res_eq hr, wbind_ok, asthreadResAddToTh,
    MwWorker.res_eq (hset w _)]
  refine Meets.bind (Q := fun w1 => w1.turn = w.turn ∧ w1.curTid = w.curTid ∧ w1.cfdRes = w.cfdRes
    ∧ w1.next = w.next ∧ w1.socks = w.socks ∧ (∀ b, b ≠ a → w1.ress b = w.ress b)
    ∧ ∃ r', w1.ress a = some r' ∧ r'.number = r.number) ?_ fun w1 h1 => ?_
  · refine (thread_any _ th).bind fun t _ => ?_
    refine ⟨rfl, rfl, rfl, rfl, rfl, ?_, _, hset _ _, rfl⟩
    intro b hb
    exact (hother _ _ b hb).trans (hother _ _ b hb)
  · obtain ⟨hturn, htid, hcfd, hnext, hsocks, hress, r', hr', hn'⟩ := h1
    simp only [asthreadResEvInit, MwWorker.res_eq hr', wbind_ok]
    split
    · refine hf _ _ hturn htid hcfd hnext hsocks (fun b hb => ?_) (hset _ _) hn'
      exact (hother _ _ b hb).trans (hress b hb)
    · exact hf w1 r' hturn htid hcfd hnext hsocks hress hr' hn'

theorem lcfSocketNew_touches (w : MwWorker) (th u : Addr) (malloc : Option Addr)
    (connect : Option Int) :
    Meets (lcfSocketNew w th u malloc connect) (fun w' => Touches w w' [] 0 0) AnyFault := by
  unfold lcfSocketNew
  split
  · exact trivial
  · rename_i hsock
    have hnone : w.socks u = none := Option.not_isSome_iff_eq_none.mp hsock
    -- `u` held nothing, and now it is `a` if there is something there at all.
    have hsocks : ∀ (s : LmSocket) v b, HoldsRes (w.setSock u (some s)) v b ↔
        HoldsRes w v b ∨ v = u ∧ s.type = .custom ∧ s.res = some b := by
      intro s v b
      obtain ⟨res, type, n⟩ := s
      by_cases hv : v = u
      · subst hv
        simp only [HoldsRes, Has, MwWorker.setSock, Function.update_self, hnone]
        simp [and_comm]
      · simp [HoldsRes, Has, MwWorker.setSock, hv]
    dsimp only
    split
    · refine SameRess.touches { SameRess.refl w with next := Nat.le_succ _, socks := fun v b => ?_ }
      refine (hsocks ⟨none, .custom, w.next⟩ v b).trans (or_iff_left ?_)
      rintro ⟨-, -, hb⟩
      cases hb
    · rename_i a
      split
      · exact trivial
      · rename_i hfree
        have ha : w.ress a = none :=
          Option.not_isSome_iff_eq_none.mp fun hs => hfree (.inr (.inl hs))
        have hback : ∀ (w' : MwWorker), w'.socks
            = (w.setSock u (some ⟨some a, .custom, w.next⟩)).socks → ∀ v b,
            HoldsRes w' v b ↔ HoldsRes w v b ∨ v = u ∧ a = b := by
          intro w' hw' v b
          have hs := hsocks ⟨some a, .custom, w.next⟩ v b
          simp only [true_and, Option.some.injEq] at hs
          rw [← hs, HoldsRes, HoldsRes]
          simp only [Has, hw']
        have hcreate : ∀ w' : MwWorker, w'.socks
            = (w.setSock u (some ⟨some a, .custom, w.next⟩)).socks →
            (∀ b, b ≠ a → w'.ress b = w.ress b) →
            (∀ r', w'.ress a = some r' → r'.number = w.next) → w'.turn = w.turn →
            w'.curTid = w.curTid → w'.cfdRes = w.cfdRes → w'.next = w.next + 1 →
            Touches w w' [] 0 0 := by
          intro w' hs hress hnew hturn htid hcfd hnext
          have hb := hback w' hs
          have := (SameRess.refl w).touches.create w' 0 ha
            (fun b hb => by rw [hress b hb]) (fun r' hr' => ?_)
            (fun v b hv => ((hb v b).mp hv).imp_right fun he => he.2.symm)
            (fun v b hv => (hb v b).mpr (.inl hv)) hturn (by simp [htid]) hcfd (by omega)
          · simpa using this
          · have hn := hnew r' hr'
            omega
        split
        · refine hcreate _ rfl (fun _ _ => rfl) (fun r' hr' => ?_) rfl rfl rfl rfl
          have hr : w.ress a = some r' := hr'
          rw [ha] at hr
          cases hr
        · rename_i fd
          unfold MwWorker.openFd
          split
          · exact trivial
          · rw [wbind_ok]
            refine linkRes_meets
              (Function.update_self ..) fun w' r' hturn htid hcfd hnext hs hress hr'
              hn' => ?_
            refine hcreate _ hs ?_ ?_ hturn htid hcfd hnext
            · intro b hb
              exact (hress b hb).trans (Function.update_of_ne hb ..)
            · intro r2 hr2
              rw [show (w'.note _).ress a = w'.ress a from rfl, hr', Option.some.injEq] at hr2
              exact hr2 ▸ hn'

theorem runAct_touches (th : Addr) (w : MwWorker) (a : LuaAct) :
    Meets (runAct th w a) (fun w' => Touches w w' a.drops 0 0) AnyFault := by
  cases a with
  | getMsock u =>
      simp only [runAct, lcfSocketGetMsock]
      split
      · exact trivial
      · rename_i hsock
        have hnone : w.socks u = none := Option.not_isSome_iff_eq_none.mp hsock
        refine (thread_any w th).bind fun t _ => SameRess.touches ?_
        refine { SameRess.refl w with socks := fun v b => ?_ }
        by_cases hv : v = u
        · subst hv
          simp [HoldsRes, Has, MwWorker.setSock, hnone]
        · simp [HoldsRes, Has, MwWorker.setSock, hv]
  | socketNew u malloc connect => exact lcfSocketNew_touches w th u malloc connect
  | close u => exact (lcfSocketClose_touches w u).imp fun _ h => h.1
  | gc u => exact lcfSocketGc_touches w u
  | evBegin socks complete =>
      refine (evBeginLoop_sameRess th socks w).bind fun w1 h1 => ?_
      split
      · exact (thread_any w1 th).bind fun t _ => (h1.trans (.setThread w1 th _)).touches
      · exact h1.touches
  | evEnd =>
      refine (thread_any w th).bind fun t _ => ?_
      split
      · exact (SameRess.refl w).touches
      · exact (asthreadRemoveResFromEpfd_sameRess _ th).imp fun w1 h1 =>
          ((SameRess.setThread w th _).trans h1).touches

/-- The acts of a script, one after another, drop what each of them drops. -/
theorem runActs_touches (th : Addr) (acts : List LuaAct) (w : MwWorker) :
    Meets (acts.foldlM (runAct th) w)
      (fun w' => Touches w w' (acts.flatMap LuaAct.drops) 0 0) AnyFault := by
  induction acts generalizing w with
  | nil => exact (SameRess.refl w).touches
  | cons a acts ih =>
      rw [List.foldlM_cons]
      refine (runAct_touches th w a).bind fun w1 h1 => (ih w1).imp fun w2 h2 => ?_
      simpa using h1.trans h2

theorem luaCollect_touches (lua : Lua) (w : MwWorker) :
    Meets (luaCollect lua w) (fun w' => Touches w w' (lua w.turn []).gc 1 0) AnyFault := by
  have hloop : ∀ (us : List Addr) (w : MwWorker),
      Meets (us.foldlM lcfSocketGc w) (fun w' => Touches w w' us 0 0) AnyFault := by
    intro us
    induction us with
    | nil => exact fun w => (SameRess.refl w).touches
    | cons u us ih =>
        intro w
        rw [List.foldlM_cons]
        refine (lcfSocketGc_touches w u).bind fun w1 h1 => (ih w1).imp fun w2 h2 => ?_
        simpa using h1.trans h2
  have hcall : Touches w { w with turn := w.turn + 1 } [] 1 0 :=
    { (SameRess.refl w).touches with turn := rfl }
  refine (hloop _ _).imp fun w' h => ?_
  simpa using hcall.trans h

/-! ## The handlers -/

theorem threadResume_touches (lua : Lua) (k : Nat) {w : MwWorker} {th : Addr}
    (hst : (w.tm.threads th).status ≠ .stop) (args : LuaStack) :
    Meets (threadResume lua k w th args)
      (fun w' => Touches w w' (lua w.turn args).drops 1 0) AnyFault := by
  refine (thread_any w th).bind fun t ht => ?_
  subst ht
  rw [if_neg hst]
  let w1 : MwWorker := { w with turn := w.turn + 1, waits := Function.update w.waits th none }
  have hcall : Touches w w1 [] 1 0 := { (SameRess.refl w).touches with turn := rfl }
  refine Meets.bind (runActs_touches th (lua w.turn args).acts w1) fun w2 h2 => ?_
  refine (afterResume_sameRess k w2 th (lua w.turn args)).imp fun w3 h3 => ?_
  have h := (hcall.trans h2).same h3
  simp only [List.nil_append, Nat.add_zero] at h
  exact h

theorem newThread_touches (lua : Lua) (w : MwWorker) (c : Conn) :
    Meets (newThread lua w c)
      (fun p => Touches w p.1 (lua w.turn []).gc 1 (if c.lthread then 1 else 0)
      ∧ (p.2.isSome ↔ c.Makes w.curTid)) AnyFault := by
  let w1 : MwWorker := { w with
    fds := Function.update w.fds c.fd (some w.next), next := w.next + 1 }
  have hcollect : w.fds c.fd = none → Meets (luaCollect lua w1)
      (fun w2 => Touches w w2 (lua w.turn []).gc 1 0 ∧ w.next < w2.next) AnyFault := by
    intro _
    have h1 : SameRess w w1 := { SameRess.refl w with next := Nat.le_succ w.next }
    exact (luaCollect_touches lua w1).imp fun w2 h2 => ⟨h1.then h2, h2.next⟩
  -- The block that is written is no resource.
  have hstart : ∀ th t w2, Touches w w2 (lua w.turn []).gc 1 0 →
      Touches w (w2.startThread th t c.lthread w.next) (lua w.turn []).gc 1
        (if c.lthread then 1 else 0) := by
    intro th t w2 h2
    have hstep : Touches w2 (w2.startThread th t c.lthread w.next) [] 0
        (if c.lthread then 1 else 0) := { (SameRess.refl w2).touches with curTid := rfl }
    simpa using h2.trans hstep
  have hmakes : ∀ w2, Touches w w2 (lua w.turn []).gc 1 0 →
      ((c.lthread = true ∧ w2.curTid + 1 ≠ -1) ↔ c.Makes w.curTid) := by
    intro w2 h2
    simp [h2.curTid, Conn.Makes]
  refine newThread_bind trivial trivial hcollect ?_ ?_ ?_
  · rintro w2 ⟨h2, -⟩ - hfail
    have hno : ¬c.lthread = true := by simp [hfail]
    rw [if_neg hno]
    exact ⟨h2, iff_of_false (by simp) fun hm => hno hm.1⟩
  · rintro th t w2 - ⟨h2, -⟩ hmade
    refine ⟨(hstart th t w2 h2).same { SameRess.refl _ with }, ?_⟩
    exact iff_of_false (by simp) fun hm => hmade ((hmakes w2 h2).mpr hm)
  · rintro th t w2 res - ⟨h2, hnext2⟩ hmade - - hfree
    have h4 := hstart th t w2 h2
    refine linkRes_meets (Function.update_self ..) fun w5 r' hturn htid5 hcfd hnext hs hress hr'
      hn' => (thread_any w5 th).bind fun t5 _ => ⟨?_, iff_of_true rfl ((hmakes w2 h2).mp hmade)⟩
    have hsocks : ∀ v b, HoldsRes w5 v b ↔ HoldsRes (w2.startThread th t c.lthread w.next) v b := by
      intro v b
      rw [HoldsRes, HoldsRes]
      simp only [Has, hs]
      exact .rfl
    have hc := h4.create ((w5.setThread th { t5 with mfdRes := some res }).note
      (.threadInit w.next)) 0 hfree (fun b hb => ?_) (fun r2 hr2 => ?_)
      (fun v b hv => .inl ((hsocks v b).mp hv)) (fun v b hv => (hsocks v b).mpr hv) hturn
      (by simp [htid5, MwWorker.setThread, MwWorker.note, MwWorker.setRes]) hcfd
        (Nat.le_of_eq hnext.symm)
    · simpa using hc
    · rw [show ((w5.setThread th _).note _).ress b = w5.ress b from rfl, hress b hb]
      exact congrArg _ (Function.update_of_ne hb ..)
    · have hr5 : w5.ress res = some r2 := hr2
      rw [hr', Option.some.injEq] at hr5
      subst hr5
      rw [hn']
      refine ⟨Nat.le_refl _, ?_⟩
      change w.next < w5.next
      rw [hnext]
      exact hnext2

theorem delFromPool_status (k : Nat) (w : MwWorker) (th : Addr) :
    Meets (delFromPool k w th)
      (fun w' => ∀ x, (w'.tm.threads x).status = (w.tm.threads x).status) AnyFault := by
  have hdel : Meets (asthreadThDelFromPool k w.tm th)
      (fun s => ∀ x, (s.1.threads x).status = (w.tm.threads x).status) fun _ => True := by
    unfold asthreadThDelFromPool
    split
    · exact fun _ => rfl
    · cases rbTreeDelete k _ th with
      | error e => exact trivial
      | ok m =>
          intro x
          exact (setThread_same_links (w.tm.setPool _ m) th none x).2.2.2
  unfold delFromPool
  cases h : asthreadThDelFromPool k w.tm th with
  | error e => exact trivial
  | ok s =>
      rw [h] at hdel
      exact hdel

theorem handleFd_touches (lua : Lua) (k : Nat) (w : MwWorker) (res : Addr) (args : LuaStack) :
    Meets (handleFd lua k w res args)
      (fun w' => ∃ i, Touches w w' (fdDrops lua w res args) i 0) AnyFault := by
  refine (res_any w res).bind fun r hr => ?_
  cases hth : r.th with
  | none => exact trivial
  | some th =>
      refine (thread_any w th).bind fun t ht => ?_
      subst ht
      have hdrops : fdDrops lua w res args
          = if (w.tm.threads th).status = .stop then [] else (lua w.turn args).drops := by
        simp only [fdDrops, hr, Option.bind_some, hth]
      rw [hdrops]
      split
      · exact ⟨0, (SameRess.refl w).touches⟩
      · rename_i hst
        refine ((delFromPool_sameRess k w th).and (delFromPool_status k w th)).bind fun w1 h1 => ?_
        refine ((thRemoveResFromEpfd_sameRess w1 th).and (thRemoveResFromEpfd_same w1 th)).bind
          fun w2 h2 => ?_
        have hst2 : (w2.tm.threads th).status ≠ .stop := by
          rwa [(h2.2.threads th).2.2, h1.2]
        refine (threadResume_touches lua k hst2 args).imp fun w3 h3 => ⟨1, ?_⟩
        have hsame := h1.1.trans h2.1
        rw [← hsame.turn]
        exact hsame.then h3

theorem acceptConn_touches (lua : Lua) (k : Nat) (w : MwWorker) (c : Conn) :
    Meets (acceptConn lua k w c)
      (fun w' => if c.Makes w.curTid then
          Touches w w' ((lua w.turn []).gc ++ (lua (w.turn + 1) []).drops) 2 1
        else Touches w w' (lua w.turn []).gc 1 (if c.lthread then 1 else 0)) AnyFault := by
  have hmade : Meets (newThread lua w c) (Made w) AnyFault :=
    (newThread_made lua w c).imp_error fun _ _ => trivial
  refine ((newThread_touches lua w c).and hmade).bind fun p hp => ?_
  obtain ⟨⟨htouch, hmakes⟩, hcase⟩ := hp
  obtain ⟨w1, o⟩ := p
  have hnone : o = none → ite (c.Makes w.curTid)
      (Touches w w1 ((lua w.turn []).gc ++ (lua (w.turn + 1) []).drops) 2 1)
      (Touches w w1 (lua w.turn []).gc 1 (if c.lthread then 1 else 0)) := by
    rintro rfl
    rw [if_neg fun hm => nomatch hmakes.mpr hm]
    exact htouch
  rcases hcase with ⟨ho, -⟩ | ⟨th, t, -, ⟨ho, -⟩ | ⟨ho, hst, n, hsame⟩⟩
  · dsimp only at ho
    subst ho
    exact hnone rfl
  · dsimp only at ho
    subst ho
    exact hnone rfl
  · dsimp only at ho
    subst ho
    have hm := hmakes.mp rfl
    have hst1 : (w1.tm.threads th).status ≠ .stop := by
      rw [(hsame.threads th).2.2]
      dsimp only [MwWorker.setThread]
      rwa [ThreadMem.setThread_self]
    simp only [if_pos hm]
    rw [if_pos hm.1] at htouch
    refine (threadResume_touches lua k hst1 []).imp fun w2 h2 => ?_
    have h := htouch.trans h2
    rw [htouch.turn] at h
    simpa using h

theorem handleAccept_touches (lua : Lua) (k : Nat) (conns : List Conn) (w : MwWorker) :
    Meets (handleAccept lua k w conns)
      (fun w' => ∃ i j, Touches w w' (connDrops lua w.turn w.curTid conns) i j) AnyFault := by
  unfold handleAccept
  induction conns generalizing w with
  | nil => exact ⟨0, 0, (SameRess.refl w).touches⟩
  | cons c conns ih =>
      rw [List.foldlM_cons]
      refine (acceptConn_touches lua k w c).bind fun w1 h1 => (ih w1).imp fun w2 h2 => ?_
      obtain ⟨i, j, h2⟩ := h2
      rw [connDrops]
      split at h1
      · rw [if_pos ‹_›, ← List.append_assoc, ← h1.curTid, ← h1.turn]
        exact ⟨_, _, h1.trans h2⟩
      · rw [if_neg ‹_›]
        have htid : w.curTid + (if c.lthread then 1 else 0)
            = if c.lthread then w.curTid + 1 else w.curTid := by
          cases c.lthread <;> simp
        have h := h1.trans h2
        rw [h1.turn, h1.curTid, htid] at h
        exact ⟨_, _, h⟩

theorem dispatch_touches (lua : Lua) (k : Nat) (w : MwWorker) (e : EpollEvent) :
    Meets (dispatch lua k w e)
      (fun w' => ∃ i j, Touches w w' (eventDrops lua w e) i j) AnyFault := by
  have hchosen := @dispatch_choose _ lua k w e
    (fun D x => Meets x (fun w' => ∃ i j, Touches w w' D i j) AnyFault)
  refine hchosen (fun _ => ⟨0, 0, (close_sameRess w w.cfd).touches⟩)
    ⟨0, 0, (SameRess.refl w).touches⟩ (handleAccept_touches lua k e.conns w) fun args => ?_
  exact (handleFd_touches lua k w e.ptr args).imp fun w' h => h.imp fun i hi => ⟨0, hi⟩

end Artorias
