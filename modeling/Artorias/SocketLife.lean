import Artorias.ResFree

/-!
# The life of a socket

Whatever order threads are made and freed in, and sockets made, closed and
collected: `socketRun_life` says what becomes of a socket of `lcf_socket_new`,
and that no step ever touches a block that has been recycled. This is for
sockets that have been made; `lcfSocketNew_fails_harmless_iff` is about those
that could not be.
-/

namespace Artorias

inductive SocketOp where
  /-- `handle_accept` makes a thread. -/
  | thread (c : Conn)
  | msock (th u : Addr)
  | new (th u : Addr) (malloc : Option Addr) (fd : Int)
  | close (u : Addr)
  | gc (u : Addr)
  /-- `asthread_th_free`, and the thread's blocks are recycled. -/
  | free (th : Addr)

def runSocketOp (lua : Lua) (w : MwWorker) : SocketOp → WRun MwWorker
  | .thread c => do
      let (w, _) ← newThread lua w c
      .ok w
  | .msock th u => lcfSocketGetMsock w th u
  | .new th u malloc fd => lcfSocketNew w th u malloc (some fd)
  | .close u => lcfSocketClose w u
  | .gc u => lcfSocketGc w u
  | .free th => releaseThread lua w th

/-- The thread has not been freed. -/
def SocketOpOk (w : MwWorker) : SocketOp → Prop
  | .msock th _ | .new th _ _ _ | .free th => (w.number th).isSome
  | .thread _ | .close _ | .gc _ => True

inductive SocketRun (lua : Lua) : MwWorker → List SocketOp → MwWorker → Prop where
  | nil (w : MwWorker) : SocketRun lua w [] w
  | cons {w w1 w' : MwWorker} {op : SocketOp} {ops : List SocketOp} : SocketOpOk w op →
      runSocketOp lua w op = .ok w1 → SocketRun lua w1 ops w' → SocketRun lua w (op :: ops) w'

/-- No block, or a block or a descriptor that is in use, or no such userdata. -/
def Environment (e : WFault) : Prop := e = .env ∨ e = .null

/-- The socket of `u` has its resource yet, which is open as long as it belongs
to a thread. -/
structure SocketAlive (w : MwWorker) (u a : Addr) (n : Nat) : Prop where
  held : w.socks u = some ⟨some a, .custom, n⟩
  recycled : w.log.count (.resRecycle n) = 0
  res : ∃ r, w.ress a = some r ∧ r.number = n
    ∧ w.log.count (.fdClose n) = (if r.th = none then 1 else 0)
    ∧ ∀ th, r.th = some th ↔ (w.number th).isSome ∧ a ∈ (w.tm.threads th).resl

structure SocketEnded (w : MwWorker) (n : Nat) : Prop where
  recycled : w.log.count (.resRecycle n) = 1
  closed : w.log.count (.fdClose n) = 1
  held : ∀ u a, w.socks u ≠ some ⟨some a, .custom, n⟩

/-- The older resources of each thread, but for those that have been recycled,
are linked in the order they were. -/
def KeepsOrder (w w' : MwWorker) : Prop :=
  ∀ th, (w.number th).isSome → (w'.number th).isSome →
    (w'.linked th).filter (· ∈ w.linked th)
      = (w.linked th).filter fun m => w'.log.count (.resRecycle m) = 0

/-! ## One step -/

/-- What any of the steps does: everything that is there still has its one owner, nobody
holds anything but what has been made since, and the log goes on. -/
structure SocketStep (w w' : MwWorker) : Prop where
  owner : Owner w' none
  has : ∀ o a n, Has w' o a n → Has w o a n ∨ w.next ≤ n
  log : ∀ e n, e.number = some n → w.log.count e ≤ w'.log.count e
  order : KeepsOrder w w'

theorem Accounts.recycle_linked {w : MwWorker} {freeing : Option Addr} (h : Accounts w freeing)
    (th : Addr) :
      (w.linked th).filter (fun m => w.log.count (.resRecycle m) = 0) = w.linked th := by
  refine List.filter_eq_self.mpr fun m hm => ?_
  obtain ⟨a, -, ha⟩ := List.mem_filterMap.mp hm
  obtain ⟨r, hr, rfl⟩ := Option.map_eq_some_iff.mp ha
  rw [(h.res a r hr).1]
  rfl

theorem SocketStep.of_same {w w' : MwWorker} (h : SameOwners w w') (hw : Owner w none) :
    SocketStep w w' := by
  refine ⟨h.owner hw, fun o a n ho => .inl ((h.has o a n).mp ho),
    fun e n he => Nat.le_of_eq (h.log e n he).symm, ?_⟩
  intro th hn _
  simp only [h.linked hn, h.log _ _ (show (WorkerEvent.resRecycle _).number = some _ from rfl)]
  rw [hw.2.recycle_linked, List.filter_eq_self.mpr fun m hm => by simpa using hm]

theorem KeepsOrder.of_thins {w w' : MwWorker} (h : Thins w w') : KeepsOrder w w' := by
  intro th _ hn'
  rw [(h.linked th hn').2, List.filter_filter]
  refine List.filter_congr fun m hm => ?_
  simp [hm]

theorem SocketStep.of_collects {w w' : MwWorker} (h : Collects w w') (hw : Owner w' none) :
    SocketStep w w' :=
  ⟨hw, fun o a n ho => .inl (h.has o a n ho), fun e _ _ => h.thins.log e, .of_thins h.thins⟩

theorem Creates.linked {w w' : MwWorker} {o : Holder} {th a : Addr} {n : Nat}
    (h : Creates w w' o th a n) (hw : Links w w.reslOf) {x : Addr} (hx : (w.number x).isSome) :
    w'.linked x = if x = th then n :: w.linked x else w.linked x := by
  have hold : ∀ b ∈ w.reslOf x, (w'.ress b).map AsThreadRes.number
      = (w.ress b).map AsThreadRes.number := by
    intro b hb
    obtain ⟨r, hr, -⟩ := hw.linked x b hx hb
    rw [h.res_of_ne (h.ne_of_inUse hr)]
  split
  · subst x
    obtain ⟨l, hresl, hl⟩ := h.resl
    rw [if_pos hx] at hl
    obtain ⟨r, hress, -, -, hn, -⟩ := h.res
    have hself : (w'.ress a).map AsThreadRes.number = some n := by
      rw [hress, Function.update_self, Option.map_some, hn]
    rw [MwWorker.linked, hresl, hl,
      List.filterMap_cons_some (f := fun b => (w'.ress b).map AsThreadRes.number) hself,
      List.filterMap_congr hold]
    rfl
  · rw [MwWorker.linked, h.others x ‹_›, List.filterMap_congr hold]
    rfl

theorem SocketStep.of_makes {w w' : MwWorker} {u th a : Addr} (hw : Owner w none)
    (h : Makes w (.userdata u) th a w') : SocketStep w w' := by
  obtain ⟨w1, w2, h1, hc, h2⟩ := h
  have hw1 := h1.owner hw
  refine ⟨h2.owner (hc.owner hw1), ?_, ?_, ?_⟩
  · intro o b m ho
    rcases (hc.has o b m).mp ((h2.has o b m).mp ho) with ho | ⟨-, -, rfl⟩
    · exact .inl ((h1.has o b m).mp ho)
    · exact .inr (Nat.le_refl _)
  · intro e m he
    rw [h2.log e m he, hc.log, List.count_append, h1.log e m he]
    exact Nat.le_add_right _ _
  · intro x hx _
    have hx1 : (w1.number x).isSome := by rwa [h1.number]
    have hcount : ∀ m, w'.log.count (.resRecycle m) = w.log.count (.resRecycle m) := fun m => by
      rw [h2.log _ m rfl, hc.count (e := .resRecycle m) nofun nofun, h1.log _ m rfl]
    have hnew : w.next ∉ w.linked x := by
      intro hm
      obtain ⟨b, -, hb⟩ := List.mem_filterMap.mp hm
      obtain ⟨r, hr, hn⟩ := Option.map_eq_some_iff.mp hb
      exact absurd hn (Nat.ne_of_lt (hw.1.old b r hr).2)
    simp only [hcount, hw.2.recycle_linked]
    rw [h2.linked (hc.live_of_live hx1), hc.linked hw1.1 hx1, h1.linked hx]
    split
    · rw [List.filter_cons_of_neg (by simpa using hnew)]
      exact List.filter_eq_self.mpr fun m hm => by simpa using hm
    · exact List.filter_eq_self.mpr fun m hm => by simpa using hm

theorem SocketStep.of_accepts {w : MwWorker} {p : MwWorker × Option Addr} (h : Accepts w p) :
    SocketStep w p.1 := by
  obtain ⟨howner, w1, w2, h1, hc, hw2, hcase⟩ := h
  have hthin : ∀ x, (w.number x).isSome → (w2.number x).isSome
      ∧ w2.linked x = (w.linked x).filter fun m => w2.log.count (.resRecycle m) = 0 := by
    intro x hx
    have hx2 : (w2.number x).isSome := by rwa [hc.number, h1.number]
    refine ⟨hx2, ?_⟩
    rw [(hc.thins.linked x hx2).2, h1.linked hx]
  have hlog : ∀ e n, e.number = some n → w.log.count e ≤ w2.log.count e := by
    intro e n he
    rw [← h1.log e n he]
    exact hc.thins.log e
  have hhas : ∀ o a n, Has w2 o a n → Has w o a n := fun o a n ho =>
    (h1.has o a n).mp (hc.has o a n ho)
  have horder : ∀ x, (w.number x).isSome → p.1.linked x = w2.linked x →
      (∀ m, p.1.log.count (.resRecycle m) = w2.log.count (.resRecycle m)) →
      (p.1.linked x).filter (· ∈ w.linked x)
        = (w.linked x).filter fun m => p.1.log.count (.resRecycle m) = 0 := by
    intro x hx hl hcount
    simp only [hl, hcount]
    rw [(hthin x hx).2, List.filter_filter]
    refine List.filter_congr fun m hm => ?_
    simp [hm]
  rcases hcase with ⟨-, hp⟩ | ⟨-, w3, h3, hp⟩ | ⟨th, res, w3, -, hdead, hcr, h3⟩
  · rw [hp] at howner horder ⊢
    exact ⟨howner, fun o a n ho => .inl (hhas o a n ho), fun e n he => hlog e n he,
      fun x hx _ => horder x hx rfl fun _ => rfl⟩
  · have hcount : ∀ e n, e.number = some n → w2.log.count e ≤ p.1.log.count e := by
      intro e n he
      rw [hp, MwWorker.note, List.count_append, h3.log e n he]
      exact Nat.le_add_right _ _
    refine ⟨howner, ?_, fun e n he => Nat.le_trans (hlog e n he) (hcount e n he),
      fun x hx _ => horder x hx ?_ ?_⟩
    · intro o a n ho
      rw [hp] at ho
      refine .inl (hhas o a n ((h3.has o a n).mp ?_))
      cases o <;> exact ho
    · rw [hp]
      exact h3.linked (hthin x hx).1
    · intro m
      rw [hp, MwWorker.note, List.count_append, h3.log _ m rfl]
      simp
  · refine ⟨howner, ?_, ?_, fun x hx _ => horder x hx ?_ ?_⟩
    · intro o a n ho
      rcases (hcr.has o a n).mp ((h3.has o a n).mp ho) with ho | ⟨-, -, rfl⟩
      · exact .inl (hhas o a n ho)
      · exact .inr (Nat.le_refl _)
    · intro e n he
      rw [h3.log e n he, hcr.log, List.count_append]
      exact Nat.le_trans (hlog e n he) (Nat.le_add_right _ _)
    · have hx2 := (hthin x hx).1
      rw [h3.linked (hcr.live_of_live hx2), hcr.linked hw2.1 hx2, if_neg]
      rintro rfl
      rw [hdead] at hx2
      cases hx2
    · intro m
      rw [h3.log _ m rfl, hcr.count (e := .resRecycle m) (by simp) (by simp)]

theorem lcfSocketGetMsock_owners {w : MwWorker} {th u : Addr} (hlive : (w.number th).isSome)
    {E : WFault → Prop} (henv : E .env) : Meets (lcfSocketGetMsock w th u) (SameOwners w) E := by
  unfold lcfSocketGetMsock
  split
  · exact henv
  · rename_i hsock
    have hnone : w.socks u = none := Option.not_isSome_iff_eq_none.mp hsock
    rw [MwWorker.thread_eq hlive, wbind_ok]
    refine { SameOwners.refl w with holds := fun v a n => ?_ }
    by_cases hv : v = u
    · subst hv
      simp [Has, MwWorker.setSock, hnone]
    · simp only [Has, MwWorker.setSock, Function.update_of_ne hv]

theorem lcfSocketNew_none (w : MwWorker) (th u : Addr) (connect : Option Int) {E : WFault → Prop}
    (henv : E .env) : Meets (lcfSocketNew w th u none connect) (SameOwners w) E := by
  unfold lcfSocketNew
  split
  · exact henv
  · rename_i hsock
    have hnone : w.socks u = none := Option.not_isSome_iff_eq_none.mp hsock
    refine { SameOwners.refl w with holds := fun v a n => ?_, next := Nat.le_succ _ }
    by_cases hv : v = u
    · subst hv
      simp [Has, MwWorker.setSock, hnone]
    · simp only [Has, MwWorker.setSock, Function.update_of_ne hv]

/-- A step of a run keeps what `Owner` says, and so touches no block that has
been recycled. -/
theorem runSocketOp_step {lua : Lua} {w : MwWorker} {op : SocketOp} (h : Owner w none)
    (hop : SocketOpOk w op) : Meets (runSocketOp lua w op) (SocketStep w) Environment := by
  have henv : Environment .env := .inl rfl
  cases op with
  | thread c =>
      refine (newThread_accepts h lua c henv (.inr rfl)).bind fun p hp => ?_
      exact .of_accepts hp
  | msock th u =>
      exact (lcfSocketGetMsock_owners hop henv).imp fun _ hw => .of_same hw h
  | new th u malloc fd =>
      cases malloc with
      | none => exact (lcfSocketNew_none w th u (some fd) henv).imp fun _ hw => .of_same hw h
      | some res => exact (lcfSocketNew_makes h hop henv).imp fun _ hw => .of_makes h hw.2
  | close u =>
      exact (lcfSocketClose_owner h u henv).imp fun _ hw => .of_collects hw.1.2 hw.1.1
  | gc u => exact (lcfSocketGc_owner h u henv).imp fun _ hw => .of_collects hw.2 hw.1
  | free th =>
      refine (releaseThread_owner h lua hop henv).imp fun w' hw => ?_
      exact ⟨hw.owner, fun o a n ho => .inl (hw.has o a n ho), fun e _ _ => hw.thins.log e,
        .of_thins hw.thins⟩

/-! ## Whole runs -/

theorem SocketRun.keeps {lua : Lua} {w w' : MwWorker} {ops : List SocketOp}
    (h : SocketRun lua w ops w') (hw : Owner w none) :
    Owner w' none ∧ ∀ e n, e.number = some n → w.log.count e ≤ w'.log.count e := by
  induction h with
  | nil w => exact ⟨hw, fun _ _ _ => Nat.le_refl _⟩
  | cons hop hrun _ ih =>
      have hstep := (runSocketOp_step hw hop).of_ok hrun
      obtain ⟨howner, hlog⟩ := ih hstep.owner
      exact ⟨howner, fun e n he => Nat.le_trans (hstep.log e n he) (hlog e n he)⟩

theorem SocketAlive.of_has {w : MwWorker} (h : Owner w none) {u a : Addr} {n : Nat}
    (hu : Has w (.userdata u) a n) : SocketAlive w u a n := by
  obtain ⟨r, hr, rfl⟩ := h.1.has _ a n hu
  obtain ⟨hrec, hclose⟩ := h.2.res a r hr
  refine ⟨hu, hrec, r, hr, rfl, ?_, fun th => ⟨fun hth => h.1.owned a r th hr hth, ?_⟩⟩
  · rw [hclose, h.1.freef a r hr]
    cases r.th <;> rfl
  · intro hmem
    obtain ⟨r', hr', hth⟩ := h.1.linked th a hmem.1 hmem.2
    rw [hr, Option.some.injEq] at hr'
    exact hr' ▸ hth

/-- What a run leaves of a socket: it is there if it has not been closed. -/
def SocketFate (w : MwWorker) (u a : Addr) (n : Nat) (ops : List SocketOp) : Prop :=
  SocketAlive w u a n ∧ .close u ∉ ops ∧ .gc u ∉ ops ∨ SocketEnded w n

/-- A socket that was made, and that nobody holds any more, has ended for good: its
descriptor has been closed once and its block recycled once. -/
theorem SocketEnded.of_owner {w : MwWorker} (h : Owner w none) {n : Nat}
    (hn : .socketNew n ∈ w.log) (hno : ∀ u a, ¬Has w (.userdata u) a n) : SocketEnded w n := by
  rcases h.2.sockets n hn with ⟨-, ⟨u, a, hu⟩ | ⟨hrec, hclose⟩⟩
  · exact absurd hu (hno u a)
  · exact ⟨hrec, hclose, hno⟩

/-- After a close, or after the collector, the userdata holds nothing. -/
theorem runSocketOp_ends {lua : Lua} {w w' : MwWorker} {op : SocketOp} {u : Addr} (h : Owner w none)
    (hop : op = .close u ∨ op = .gc u) (hrun : runSocketOp lua w op = .ok w') (a : Addr) (n : Nat) :
    ¬Has w' (.userdata u) a n := by
  have henv : Environment .env := .inl rfl
  rcases hop with rfl | rfl
  · exact ((lcfSocketClose_owner h u henv).of_ok hrun).2 a n
  · have hgc : Meets (lcfSocketGc w u) (fun w' => w'.socks u = none) Environment :=
      (lcfSocketClose_owner h u henv).bind fun w1 _ => Function.update_self ..
    have hnone : w'.socks u = none := hgc.of_ok hrun
    intro hu
    rw [Has, hnone] at hu
    cases hu

theorem SocketRun.fate {lua : Lua} {w w' : MwWorker} {ops : List SocketOp}
    (h : SocketRun lua w ops w') (hw : Owner w none) {n : Nat} (hn : .socketNew n ∈ w.log)
    {u a : Addr}
    (hu : ∀ v b, Has w (.userdata v) b n → v = u ∧ b = a) : SocketFate w' u a n ops := by
  induction h with
  | nil w =>
      by_cases hh : Has w (.userdata u) a n
      · exact .inl ⟨.of_has hw hh, List.not_mem_nil, List.not_mem_nil⟩
      · refine .inr (.of_owner hw hn fun v b hv => hh ?_)
        obtain ⟨rfl, rfl⟩ := hu v b hv
        exact hv
  | @cons w w1 w' op ops hop hrun hrest ih =>
      have hstep := (runSocketOp_step hw hop).of_ok hrun
      have hn1 : .socketNew n ∈ w1.log :=
        List.count_pos_iff.mp (Nat.lt_of_lt_of_le (List.count_pos_iff.mpr hn) (hstep.log _ n rfl))
      have hu1 : ∀ v b, Has w1 (.userdata v) b n → v = u ∧ b = a := by
        intro v b hv
        have hold : ¬w.next ≤ n := Nat.not_le_of_lt (hw.2.old _ hn n rfl)
        exact hu v b ((hstep.has _ b n hv).resolve_right hold)
      rcases ih hstep.owner hn1 hu1 with ⟨halive, hclose, hgc⟩ | hended
      · have hne : ¬(op = .close u ∨ op = .gc u) := by
          intro hend
          have hnot := runSocketOp_ends hw hend hrun a n
          have hended : SocketEnded w1 n := .of_owner hstep.owner hn1 fun v b hv => by
            obtain ⟨rfl, rfl⟩ := hu1 v b hv
            exact hnot hv
          have hle := (hrest.keeps hstep.owner).2 (.resRecycle n) n rfl
          rw [hended.recycled, halive.recycled] at hle
          exact absurd hle (by decide)
        refine .inl ⟨halive, ?_, ?_⟩
        · intro hm
          exact (List.mem_cons.mp hm).elim (fun he => hne (.inl he.symm)) hclose
        · intro hm
          exact (List.mem_cons.mp hm).elim (fun he => hne (.inr he.symm)) hgc
      · exact .inr hended

/-- A socket that `lcf_socket_new` has made for a thread: as long as it is
there its resource has not been recycled, and is linked in the thread that it
points to; after a close, or when the userdata has been collected, the
descriptor has been closed once and the block recycled once. All this time no
step uses a block that has been recycled, and the other resources keep their
order. -/
theorem socketRun_life {lua : Lua} {w₀ w w₁ w₂ : MwWorker} {before after : List SocketOp}
    {th u res : Addr} {fd : Int} (hbegun : Begun w₀) (hbefore : SocketRun lua w₀ before w)
    (hlive : (w.number th).isSome)
    (hnew : runSocketOp lua w (.new th u (some res) fd) = .ok w₁)
    (hafter : SocketRun lua w₁ after w₂) :
    SocketFate w₂ u res w.next after
      ∧ ∀ op, SocketOpOk w₂ op → Meets (runSocketOp lua w₂ op) (KeepsOrder w₂) Environment := by
  have hw : Owner w none := (hbefore.keeps hbegun.owner).1
  have hmakes := (lcfSocketNew_makes (E := Environment) hw hlive (.inl rfl)).of_ok hnew
  have howner₁ : Owner w₁ none := (SocketStep.of_makes hw hmakes.2).owner
  constructor
  · obtain ⟨-, w1, w2, h1, hc, h2⟩ := hmakes
    refine hafter.fate howner₁ ?_ ?_
    · rw [h2.mem_log rfl, hc.log]
      exact List.mem_append_right _ (.head _)
    · intro v b hv
      rcases (hc.has _ b _).mp ((h2.has _ b _).mp hv) with hv | ⟨hvu, hb, -⟩
      · exact absurd hv (hc.unused.not_has (h1.owner hw).1)
      · cases hvu
        exact ⟨rfl, hb⟩
  · intro op hop
    exact (runSocketOp_step (hafter.keeps howner₁).1 hop).imp fun _ hstep => hstep.order

/-- The thread is freed before the socket is collected, so that its descriptor is closed
with the thread and its block recycled with the userdata. -/
theorem socketRun_life_freed : ∃ w₂, SocketFate w₂ 30 21 2 [.free 10, .close 30, .gc 30]
    ∧ w₂.log = [.threadInit 1, .socketNew 2, .threadFree 1, .fdClose 2, .fdClose 1, .resRecycle 1,
      .threadRecycle 1, .resRecycle 2] := by
  exact ⟨_, (@socketRun_life idleLua startWorker _ _ _ [.thread ⟨4, some 10, true, some 20⟩]
    [.free 10, .close 30, .gc 30] 10 30 21 5 startWorker_begun (.cons trivial rfl (.nil _)) rfl rfl
    (.cons rfl rfl (.cons trivial rfl (.cons trivial rfl (.nil _))))).1, rfl⟩

/-! ## When `lcf_socket_new` fails -/

/-- The finaliser of `u` reads no block that is not out of the pool, closes no
descriptor and recycles no block. -/
def Harmless (w : MwWorker) (u : Addr) : Prop :=
  ∃ w', lcfSocketGc w u = .ok w' ∧ w'.fds = w.fds ∧ w'.ress = w.ress ∧ w'.log = w.log

theorem Harmless.of_skip {w : MwWorker} {u : Addr} {sock : LmSocket} (hs : w.socks u = some sock)
    (hskip : sock.res = none ∨ sock.type = .system) : Harmless w u := by
  have hclose : lcfSocketClose w u = .ok w := by
    unfold lcfSocketClose
    rw [hs]
    dsimp only
    cases hres : sock.res with
    | none => rfl
    | some a =>
        rw [hres] at hskip
        exact if_pos (hskip.resolve_left (Option.some_ne_none a))
  refine ⟨w.setSock u none, ?_, rfl, rfl, rfl⟩
  rw [lcfSocketGc, hclose]
  rfl

/-- A finaliser that gets to its end has recycled the block that `sock->res` points to,
whoever has it by then. -/
theorem lcfSocketGc_recycles {w : MwWorker} {u a : Addr} {n : Nat}
    (hs : w.socks u = some ⟨some a, .custom, n⟩) :
    Meets (lcfSocketGc w u) (fun w' => w.ress a ≠ none ∧ w'.ress a = none) fun _ => True := by
  have hunlink : Meets (unlinkRes w a) (fun _ => w.ress a ≠ none) fun _ => True := by
    rw [unlinkRes, MwWorker.res]
    cases w.ress a with
    | none => trivial
    | some r =>
        have hsome : some r ≠ none := Option.some_ne_none r
        rw [wbind_ok]
        cases r.th with
        | none => exact hsome
        | some th =>
            have hthread : Meets (w.thread th) (fun _ => True) fun _ => True := by
              cases w.thread th <;> trivial
            exact hthread.bind fun _ _ => hsome
  have hrecycle : ∀ w1 : MwWorker,
      Meets (w1.recycleRes a) (fun w2 => w2.ress a = none) fun _ => True := by
    intro w1
    rw [MwWorker.recycleRes]
    cases w1.ress a with
    | none => trivial
    | some r => exact Function.update_self ..
  have hclose : lcfSocketClose w u = (do
      let w ← unlinkRes w a
      let w ← closeRes w a
      let w ← w.recycleRes a
      .ok (w.setSock u (some ⟨none, .custom, n⟩))) := by
    rw [lcfSocketClose, hs]
    rfl
  rw [lcfSocketGc, hclose]
  simp only [bind_assoc]
  refine hunlink.bind fun w1 hin => ?_
  have hmid : Meets (closeRes w1 a) (fun _ => True) fun _ => True := by
    cases closeRes w1 a <;> trivial
  refine hmid.bind fun w2 _ => (hrecycle w2).bind fun w3 hout => ?_
  exact ⟨hin, hout⟩

theorem harmless_iff {w : MwWorker} {u : Addr} {sock : LmSocket} (hs : w.socks u = some sock) :
    Harmless w u ↔ sock.res = none ∨ sock.type = .system := by
  refine ⟨?_, .of_skip hs⟩
  rintro ⟨w', hrun, -, hress, -⟩
  obtain ⟨res, type, n⟩ := sock
  cases res with
  | none => exact .inl rfl
  | some a =>
      cases type with
      | system => exact .inr rfl
      | custom =>
          obtain ⟨hin, hout⟩ := (lcfSocketGc_recycles hs).of_ok hrun
          rw [hress] at hout
          exact absurd hout hin

/-- What either failing exit leaves in the userdata: the block that `memp_alloc` has
answered, if it has, and this is not undone when it is recycled. -/
theorem lcfSocketNew_failed {w w' : MwWorker} {th u : Addr} {malloc : Option Addr}
    {connect : Option Int} (hfail : malloc = none ∨ connect = none)
    (hrun : lcfSocketNew w th u malloc connect = .ok w') :
    w'.socks u = some ⟨malloc, .custom, w.next⟩ := by
  rw [lcfSocketNew] at hrun
  split at hrun
  · cases hrun
  cases malloc with
  | none =>
      cases hrun
      exact Function.update_self ..
  | some res =>
      dsimp only at hrun
      split at hrun
      · cases hrun
      rw [hfail.resolve_left (Option.some_ne_none res)] at hrun
      cases hrun
      exact Function.update_self ..

/-- `lcf_socket_new` fails, and any time later the userdata is collected, which
until then stays as it is: this is harmless if it was the allocation that
failed, and only then. After "connect error" the userdata still points to the
block that has been recycled. -/
theorem lcfSocketNew_fails_harmless_iff {w w' : MwWorker} {th u : Addr} {malloc : Option Addr}
    {connect : Option Int} (hrun : lcfSocketNew w th u malloc connect = .ok w')
    (hfail : malloc = none ∨ connect = none) {later : MwWorker}
    (hlater : later.socks u = w'.socks u) : Harmless later u ↔ malloc = none := by
  rw [harmless_iff (hlater.trans (lcfSocketNew_failed hfail hrun))]
  exact or_iff_left (show SockType.custom ≠ .system by decide)

theorem lcfSocketNew_fails_harmless_iff_null : ∃ w' later,
    lcfSocketNew startWorker 10 30 none none = .ok w'
      ∧ runSocketOp idleLua w' (.thread ⟨4, some 10, true, some 20⟩) = .ok later
      ∧ Harmless later 30 := by
  refine ⟨_, _, rfl, rfl, ?_⟩
  refine (@lcfSocketNew_fails_harmless_iff startWorker _ 10 30 none none rfl (.inl rfl) _
    ?_).mpr rfl
  rfl

/-- Block 21 is recycled after "connect error"; when the userdata 30 is
collected it has become the socket 31, with descriptor 5. -/
theorem lcfSocketNew_fails_dangling : ∃ w w₁ w₂ w₃,
    runSocketOp idleLua startWorker (.thread ⟨4, some 10, true, some 20⟩) = .ok w
      ∧ lcfSocketNew w 10 30 (some 21) none = .ok w₁
      ∧ lcfSocketGc w₁ 30 = .error (.recycled 21)
      ∧ lcfSocketNew w₁ 10 31 (some 21) (some 5) = .ok w₂
      ∧ lcfSocketGc w₂ 30 = .ok w₃
      ∧ w₃.log = w₂.log ++ [.fdClose 3, .resRecycle 3]
      ∧ lcfSocketClose w₃ 31 = .error (.recycled 21) := by
  exact ⟨_, _, _, _, rfl, rfl, rfl, rfl, rfl, rfl, rfl⟩

end Artorias
