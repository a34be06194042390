import Artorias.SocketLife
import Artorias.WorkerRuns
import Artorias.WorkerStops

/-!
# The end of the worker

When the loop has ended `process` frees the threads of `stop_threads` once more,
and then those in the pools. `process_frees_iff`: every thread has been freed
once, and its blocks have been recycled once, if and only if the last turn left
nothing in `stop_threads`.
-/

namespace Artorias

/-- Each thread that was made has been freed once, and so have its two blocks
been recycled. -/
def FreedOnce (w : MwWorker) : Prop :=
  ∀ n, .threadInit n ∈ w.log → w.log.count (.threadFree n) = 1
    ∧ w.log.count (.threadRecycle n) = 1 ∧ w.log.count (.resRecycle n) = 1

/-- The run ends early: there is no memory, more threads have been stopped than the
block of `stop_threads` has room for, or a script waits for what is not a resource
in use. -/
def Outside (e : WFault) : Prop := Environment e ∨ e = .overflow ∨ e = .script

/-- No `lcf_socket_new` that has got a block fails to connect. -/
def Connects (lua : Lua) : Prop :=
  ∀ n args u res, .socketNew u (some res) none ∉ (lua n args).acts

/-- `stop_threads` is empty when the loop ends: the last turn has stopped no thread. -/
def LastIdle (lua : Lua) (turns : List Turn) (w : MwWorker) : Prop :=
  ∀ w', Settles (fun k => turns.foldlM (turnBody lua k) w) (.ok w') → w'.stopThreads = []

/-! ## Owners over a run -/

section

variable {lua : Lua} {w : MwWorker} {th : Addr}

theorem Outside.env : Outside .env := .inl (.inl rfl)

theorem SameOwners.close_accept (h : w.fds w.cfd = some 0) : SameOwners w (w.close w.cfd) := by
  simp only [MwWorker.close, h]
  refine SameOwners.trans ?_ (.of_note rfl)
  refine { SameOwners.refl w with fds := fun fd n hn he => ?_ }
  dsimp only
  rw [Function.update_of_ne, he]
  rintro rfl
  rw [h] at he
  exact hn (Option.some.inj he).symm

theorem runAct_owner (hlua : Connects lua) (hw : Owner w none) (hlive : (w.number th).isSome)
    {n : Nat} {args : LuaStack} {a : LuaAct} (ha : a ∈ (lua n args).acts) :
    Meets (runAct th w a) (Owner · none) Outside := by
  have hscript : Outside .script := .inr (.inr rfl)
  cases a with
  | getMsock u =>
      exact (lcfSocketGetMsock_owners hlive Outside.env).imp fun _ h => h.owner hw
  | socketNew u malloc connect =>
      cases malloc with
      | none => exact (lcfSocketNew_none w th u connect Outside.env).imp fun _ h => h.owner hw
      | some res =>
          cases connect with
          | none => exact absurd ha (hlua n args u res)
          | some fd =>
              refine (lcfSocketNew_makes hw hlive Outside.env).imp fun w1 h => ?_
              exact (SocketStep.of_makes hw h.2).owner
  | close u => exact (lcfSocketClose_owner hw u Outside.env).imp fun _ h => h.1.1
  | gc u => exact (lcfSocketGc_owner hw u Outside.env).imp fun _ h => h.1
  | evBegin socks complete =>
      refine (evBeginLoop_owners hscript Outside.env socks w).bind fun w1 h1 => ?_
      have hlive1 : (w1.number th).isSome := by
        rw [h1.number]
        exact hlive
      split
      · rw [MwWorker.thread_eq hlive1, wbind_ok]
        have hset : SameOwners w1 (w1.setThread th { w1.tm.threads th with mode := .loopSocks }) :=
          .of_setThread fun _ => ⟨rfl, rfl⟩
        exact hset.owner (h1.owner hw)
      · exact h1.owner hw
  | evEnd =>
      simp only [runAct, lcfSocketEvEnd, MwWorker.thread_eq hlive, wbind_ok]
      split
      · exact hw
      · have hset : SameOwners w (w.setThread th { w.tm.threads th with mode := .simple }) :=
          .of_setThread fun _ => ⟨rfl, rfl⟩
        have hw1 := hset.owner hw
        exact (asthreadRemoveResFromEpfd_owners hw1.1 hlive).imp fun _ h => h.owner hw1

theorem noteWait_owners (w : MwWorker) (th a : Addr) (k : Kont) :
    SameOwners w (noteWait w th a k) := by
  have hset : SameOwners w { w with waits := Function.update w.waits th (some (a, k)) } :=
    { SameOwners.refl w with }
  exact hset.trans (.of_note rfl)

theorem upholds_owner (hlua : Connects lua) : Upholds lua (Owner · none) Outside where
  core h hw := (SameOwners.of_core h).owner hw
  resumed {w th} hw := by
    have hsame : SameOwners w { w with waits := Function.update w.waits th none } :=
      { SameOwners.refl w with }
    exact hsame.owner hw
  act ha hw hlive := runAct_owner hlua hw hlive ha
  wait {w th a} k ev hw _ ha := by
    have hnote := noteWait_owners w th a k
    exact (asthreadResEvAdd_owners (hnote.inUse ha) ev).imp fun _ h => h.owner (hnote.owner hw)
  remove hw hlive := (asthreadRemoveResFromEpfd_owners hw.1 hlive).imp fun _ h => h.owner hw
  fresh c hw := (newThread_accepts hw lua c Outside.env (.inl (.inr rfl))).imp fun _ h => h.owner
  release hw hlive := (releaseThread_owner hw lua hlive Outside.env).imp fun _ h => h.owner
  script := .inr (.inr rfl)
  overflow := .inr (.inl rfl)

/-! ## The pools are emptied -/

/-- The state while the threads are freed at the end: `rest` are those that have
not been. -/
structure Ending (w : MwWorker) (rest : List Addr) : Prop where
  owner : Owner w none
  live : ∀ th, (w.number th).isSome ↔ th ∈ rest
  nodup : rest.Nodup

theorem releaseThread_ending (lua : Lua) {rest : List Addr} (h : Ending w (th :: rest)) :
    Meets (releaseThread lua w th) (fun w' => Ending w' rest ∧ w'.tm.nodes = w.tm.nodes
      ∧ w'.tm.pools = w.tm.pools) Outside := by
  have hlive : (w.number th).isSome := (h.live th).mpr (.head _)
  obtain ⟨hth, hrest⟩ := List.nodup_cons.mp h.nodup
  refine ((releaseThread_owner h.owner lua hlive Outside.env).and
    (releaseThread_freed lua w th)).imp
    fun w' h' => ?_
  obtain ⟨hreleased, hfreed⟩ := h'
  refine ⟨⟨hreleased.owner, ?_, hrest⟩, hfreed.same.nodes, hfreed.same.pools⟩
  intro x
  rw [hfreed.number]
  by_cases hx : x = th
  · subst hx
    rw [Function.update_self]
    exact iff_of_false nofun hth
  · rw [Function.update_of_ne hx, h.live x, List.mem_cons]
    exact or_iff_right hx

/-- Freeing one pool, while `others` are still in the other one. -/
theorem recyclePool_ending (lua : Lua) {t : Tree Addr} {others : List Addr}
    (h : Ending w (t.postorder ++ others)) (ht : TreeAt w.tm.nodes none t) :
    Ensures (fun k => travelThreads (fun _ => releaseThread lua) k w t.root)
      (fun w' => Ending w' others ∧ (∀ y ∈ others, w'.tm.nodes y = w.tm.nodes y)
        ∧ w'.tm.pools = w.tm.pools) Outside := by
  have hn : t.toList.Nodup := t.postorder_perm.nodup_iff.mp (List.nodup_append.mp h.nodup).1
  refine travelThreads_visits (I := fun rest w' => Ending w' (rest ++ others)
      ∧ (∀ y ∈ others, w'.tm.nodes y = w.tm.nodes y) ∧ w'.tm.pools = w.tm.pools)
    (fun rest w1 nodes h1 hk => ?_) (fun x rest w1 h1 => ?_) ht hn ⟨h, fun _ _ => rfl, rfl⟩
  · obtain ⟨hend, hnodes, hpools⟩ := h1
    have hcore : SameCore w1 (w1.setNodes nodes) := .setTrees w1 fun _ => ⟨rfl, rfl, rfl⟩
    refine ⟨⟨(SameOwners.of_core hcore).owner hend.owner, hend.live, hend.nodup⟩, ?_, hpools⟩
    intro y hy
    have hrest : y ∉ rest := fun hm => (List.nodup_append.mp hend.nodup).2.2 y hm y hy rfl
    exact (hk y hrest).trans (hnodes y hy)
  · obtain ⟨hend, hnodes, hpools⟩ := h1
    refine .meets ((releaseThread_ending lua hend).imp fun w2 h2 => ?_)
    obtain ⟨hend2, hnodes2, hpools2⟩ := h2
    exact ⟨⟨hend2, fun y hy => hnodes2 ▸ hnodes y hy, hpools2.trans hpools⟩,
      fun y _ => congrFun hnodes2 y⟩

theorem recycleThreadsFromPool_ending (h : Settled (Owner · none) w) (hstop : w.stopThreads = []) :
    Ensures (fun k => recycleThreadsFromPool lua k w) (Ending · []) Outside := by
  obtain ⟨⟨members, hsched⟩, hw⟩ := h
  obtain ⟨⟨t, _, ht, -, hio⟩, -⟩ := hsched.trees.holds ioPool
  obtain ⟨⟨u, _, hu, -, hsleep⟩, -⟩ := hsched.trees.holds sleepPool
  have hroot : w.tm.pools ioPool = t.root := ht.root
  have huroot : w.tm.pools sleepPool = u.root := hu.root
  have hmem : ∀ th, (w.number th).isSome ↔ th ∈ t.postorder ++ u.postorder := by
    intro th
    rw [List.mem_append, t.postorder_perm.mem_iff, u.postorder_perm.mem_iff, hio, hsleep]
    constructor
    · intro hnum
      have hst : (w.tm.threads th).status ≠ .stop := fun hs => by
        have hin := (hsched.stopped th).mpr ⟨hnum, hs⟩
        rw [hstop] at hin
        cases hin
      obtain ⟨p, hp⟩ := hsched.waiting th List.not_mem_nil hnum hst
      rcases hsched.member p th hp with ⟨rfl | rfl, -⟩
      · exact .inl hp
      · exact .inr hp
    · rintro (hp | hp)
      · exact (hsched.member ioPool th hp).2.1
      · exact (hsched.member sleepPool th hp).2.1
  have hnodup : (t.postorder ++ u.postorder).Nodup := by
    have hndt : t.postorder.Nodup := t.postorder_perm.nodup_iff.mpr ht.nodup
    have hndu : u.postorder.Nodup := u.postorder_perm.nodup_iff.mpr hu.nodup
    refine List.nodup_append.mpr ⟨hndt, hndu, ?_⟩
    rintro x hx _ hx' rfl
    have hxio : x ∈ members ioPool := hio ▸ t.postorder_perm.mem_iff.mp hx
    have hxsleep : x ∈ members sleepPool := hsleep ▸ u.postorder_perm.mem_iff.mp hx'
    exact absurd (hsched.trees.disjoint _ _ x hxio hxsleep) (by decide)
  unfold recycleThreadsFromPool
  rw [hroot]
  refine (recyclePool_ending lua ⟨hw, hmem, hnodup⟩ ht.tree).bind fun w1 h1 => ?_
  obtain ⟨hend, hnodes, hpools⟩ := h1
  rw [hpools, huroot]
  have hu1 : TreeAt w1.tm.nodes none u :=
    hu.tree.congr fun y hy => hnodes y (u.postorder_perm.mem_iff.mpr hy)
  rw [← List.append_nil u.postorder] at hend
  exact (recyclePool_ending lua hend hu1).imp fun _ h2 => h2.1

theorem Ending.freedOnce (h : Ending w []) : FreedOnce w := by
  intro n hn
  rcases h.owner.2.threads n hn with ⟨-, ⟨th, hth⟩ | ⟨hfree, hthread, hres, -⟩⟩
  · have hlive : (w.number th).isSome := by
      rw [hth]
      rfl
    exact absurd ((h.live th).mp hlive) List.not_mem_nil
  · exact ⟨hfree, hthread, hres⟩

theorem gcAll_ending (h : Ending w []) (last : List Addr) :
    Meets (last.foldlM lcfSocketGc w) (Ending · []) Outside := by
  refine Meets.foldlM (I := fun _ => (Ending · [])) (fun u _ w1 h1 => ?_) h
  refine (lcfSocketGc_owner h1.owner u Outside.env).imp fun w2 h2 => ?_
  exact ⟨h2.1, fun th => by rw [h2.2.number, h1.live], .nil⟩

/-! ## Whole runs -/

theorem Begun.between (h : Begun w) (hpools : ∀ p, w.tm.pools p = none) :
    Between (Owner · none) w := by
  have hstarted : Started { w with stopThreads := [] } := ⟨hpools, h.number, rfl⟩
  have hbegun : Begun { w with stopThreads := [] } := ⟨h.number, h.ress, h.socks, h.log, h.next⟩
  exact ⟨⟨⟨_, hstarted.sched⟩, hbegun.owner⟩, fun th _ => h.number th⟩

/-- The second `process_stop_threads` finds the threads of the last turn still in the array,
and their blocks have been recycled. -/
theorem processStopThreads_again {th : Addr} {rest : List Addr} (hstop : w.stopThreads = th :: rest)
    (hth : w.number th = none) : processStopThreads lua w = .error (.recycled th) := by
  rw [processStopThreads, hstop, List.foldlM_cons, releaseThread, asthreadThFree, hth]
  rfl

/-- A run whose events find their resources, whose passes cut no thread off one that is not
due, and whose scripts connect: `process` comes to its end with every thread freed once and
no block recycled twice if and only if the last turn has stopped no thread. -/
theorem process_frees_iff (hlua : Connects lua) (hbegun : Begun w)
    (hpools : ∀ p, w.tm.pools p = none) {turns : List Turn} (hturns : TurnsOk lua turns w)
    (last : List Addr) :
    Ensures (fun k => process lua k w turns last) FreedOnce Outside ↔ LastIdle lua turns w := by
  have hloop :=
    turns_flow (upholds_owner hlua) (fun hcfd hw => (SameOwners.close_accept hcfd).owner hw)
    (hbegun.between hpools) hturns
  constructor
  · intro hprocess w1 hrun
    have hbetween := hloop.of_settles hrun
    cases hstop : w1.stopThreads with
    | nil => rfl
    | cons th rest =>
        have hth : w1.number th = none := hbetween.freed th (by rw [hstop]; exact .head _)
        have hfault : Settles (fun k => process lua k w turns last) (.error (.recycled th)) := by
          refine hrun.bind (Settles.bind_error (f := fun _ => processStopThreads lua w1) ?_)
          rw [processStopThreads_again hstop hth]
          exact .const _
        obtain ⟨r, hr, hmeets⟩ := hprocess
        obtain rfl := hfault.unique hr
        rcases hmeets with (he | he) | he | he <;> cases he
  · intro hidle
    refine hloop.self.bind fun w1 h1 => ?_
    have hstop := hidle w1 h1.2
    have hsettled : Settled (Owner · none) w1 := by
      have h2 := h1.1.settled
      rwa [← hstop] at h2
    have hnone : processStopThreads lua w1 = .ok w1 := by
      rw [processStopThreads, hstop]
      rfl
    rw [hnone]
    refine (recycleThreadsFromPool_ending hsettled hstop).bind fun w2 h2 => .meets ?_
    exact (gcAll_ending h2 last).imp fun _ h3 => h3.freedOnce

end

/-- A script that sleeps. -/
def sleepyLua : Lua := fun _ _ =>
  ⟨[], [], .yield [.integer lasSYieldForSleep, .integer 5] .script, 0⟩

/-- The worker when it does. -/
def sleepyWorker : MwWorker := (turnBody sleepyLua 8 startWorker oneTurn).toOption.getD startWorker

theorem sleepyWorker_turns : TurnsOk sleepyLua [oneTurn] startWorker := by
  have hio : Settles (fun k => processIo sleepyLua k { startWorker with stopThreads := [] }
      oneTurn.events) (.ok sleepyWorker) := by
    refine ⟨8, ?_⟩
    intro k hk
    obtain ⟨j, rfl⟩ := Nat.exists_eq_add_of_le' hk
    rfl
  have htimeout :
      Settles (fun k => processIoTimeout sleepyLua k sleepyWorker 0) (.ok sleepyWorker) := by
    refine ⟨8, ?_⟩
    intro k hk
    obtain ⟨j, rfl⟩ := Nat.exists_eq_add_of_le' hk
    rfl
  refine ⟨⟨⟨rfl, fun _ _ => trivial⟩, ?_⟩, fun _ _ => trivial⟩
  intro w1 h1
  cases hio.unique h1
  have hpool : sleepyWorker.tm.pools ioPool = none := rfl
  have hleft : sleepyWorker.tm.pools sleepPool = some 10
      ∧ (sleepyWorker.tm.nodes 10).left = none := ⟨rfl, rfl⟩
  refine ⟨.of_left ?_ 0, ?_⟩
  · intro r hr
    rw [hpool] at hr
    cases hr
  · intro w2 h2
    cases htimeout.unique h2
    refine .of_left (fun r hr => ?_) 0
    rw [hleft.1, Option.some.injEq] at hr
    exact hr ▸ hleft.2

/-- One thread, which sleeps until the end and is freed with its pool. -/
theorem process_frees_sleeping :
    Ensures (fun k => process sleepyLua k startWorker [oneTurn] []) FreedOnce Outside
      ∧ (process sleepyLua 8 startWorker [oneTurn] []).toOption.map MwWorker.log
        = some [.threadInit 1, .threadFree 1, .fdClose 1, .resRecycle 1, .threadRecycle 1] := by
  refine ⟨(process_frees_iff (fun _ _ _ _ => List.not_mem_nil) startWorker_begun (fun _ => rfl)
    sleepyWorker_turns []).mpr ?_, rfl⟩
  intro w' hrun
  have hturn : Settles (fun k => [oneTurn].foldlM (turnBody sleepyLua k) startWorker)
      (.ok sleepyWorker) := by
    refine ⟨8, ?_⟩
    intro k hk
    obtain ⟨j, rfl⟩ := Nat.exists_eq_add_of_le' hk
    rfl
  cases hturn.unique hrun
  rfl

/-- The script of the only thread ends in the last turn: `process` frees it a
second time. -/
theorem process_frees_twice :
    (turnBody idleLua 8 startWorker oneTurn).toOption.map MwWorker.log
        = some [.threadInit 1, .threadFree 1, .fdClose 1, .resRecycle 1, .threadRecycle 1]
      ∧ Settles (fun k => process idleLua k startWorker [oneTurn] []) (.error (.recycled 10))
      ∧ ¬Ensures (fun k => process idleLua k startWorker [oneTurn] []) FreedOnce Outside := by
  have hfault : Settles (fun k => process idleLua k startWorker [oneTurn] [])
      (.error (.recycled 10)) := by
    refine ⟨8, ?_⟩
    intro k hk
    obtain ⟨j, rfl⟩ := Nat.exists_eq_add_of_le' hk
    rfl
  refine ⟨rfl, hfault, ?_⟩
  rintro ⟨r, hr, hmeets⟩
  obtain rfl := hfault.unique hr
  rcases hmeets with (he | he) | he | he <;> cases he

end Artorias
