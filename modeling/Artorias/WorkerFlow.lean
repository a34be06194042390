import Artorias.Sched

/-!
# What the handlers keep

The functions on resources and sockets leave the threads where they are
(`SameSched`), and moving threads leaves the resources as they are
(`SameCore`). So a handler keeps `Sched` together with any property that the
functions on resources keep (`Upholds`): the rules for `thread_resume` and for
the handlers are stated once, for all such properties.
-/

namespace Artorias

/-- Anything but a fault of the tree library. -/
def NotTree (e : WFault) : Prop := ∀ f, e ≠ .tree f

/-- What the functions on resources can end in: no fault of the tree library,
and none of `stop_threads`. -/
def LocalFault : WFault → Prop
  | .overflow | .tree _ => False
  | .null | .recycled _ | .script | .env => True

theorem LocalFault.notTree {e : WFault} (h : LocalFault e) : NotTree e := by
  rintro f rfl
  exact h

theorem LocalFault.ne_overflow {e : WFault} (h : LocalFault e) : e ≠ .overflow := by
  rintro rfl
  exact h

/-! ## Functions that leave the threads where they are -/

theorem MwWorker.res_meets (w : MwWorker) (a : Addr) :
    Meets (w.res a) (fun r => w.ress a = some r) LocalFault := by
  unfold MwWorker.res
  split
  · assumption
  · exact trivial

theorem MwWorker.thread_meets (w : MwWorker) (th : Addr) :
    Meets (w.thread th) (fun t => t = w.tm.threads th ∧ (w.number th).isSome) LocalFault := by
  unfold MwWorker.thread
  split
  · exact ⟨rfl, by simp [*]⟩
  · exact trivial

theorem SameSched.of_tm {w w' : MwWorker} (htm : w'.tm = w.tm) (hnum : w'.number = w.number)
    (hstop : w'.stopThreads = w.stopThreads) : SameSched w w' := by
  refine ⟨by rw [htm], by rw [htm], hnum, hstop, fun th => ?_⟩
  rw [htm]
  exact ⟨rfl, rfl, rfl⟩

theorem close_same (w : MwWorker) (fd : Int) : SameSched w (w.close fd) := by
  unfold MwWorker.close
  split
  · exact .refl w
  · exact .of_tm rfl rfl rfl

theorem recycleRes_same (w : MwWorker) (a : Addr) :
    Meets (w.recycleRes a) (SameSched w) LocalFault := by
  unfold MwWorker.recycleRes
  split
  · exact trivial
  · exact .of_tm rfl rfl rfl

theorem openFd_same (w : MwWorker) (fd : Int) : Meets (w.openFd fd) (SameSched w) LocalFault := by
  unfold MwWorker.openFd
  split
  · exact trivial
  · exact .of_tm rfl rfl rfl

theorem asthreadResInit_same (w : MwWorker) (a : Addr) :
    Meets (asthreadResInit w a) (SameSched w) LocalFault :=
  (w.res_meets a).bind fun _ _ => SameSched.of_tm rfl rfl rfl

theorem asthreadResAddToTh_same (w : MwWorker) (a th : Addr) :
    Meets (asthreadResAddToTh w a th) (SameSched w) LocalFault := by
  refine (w.res_meets a).bind fun r _ => (w.thread_meets th).bind fun t ht => ?_
  obtain ⟨rfl, -⟩ := ht
  have hres : SameSched w (w.setRes a { r with th := some th }) := .of_tm rfl rfl rfl
  exact hres.trans (.setThread rfl rfl rfl)

theorem asthreadResDelFromTh_same (w : MwWorker) (a th : Addr) :
    Meets (asthreadResDelFromTh w a th) (SameSched w) LocalFault := by
  refine (w.thread_meets th).bind fun t ht => ?_
  obtain ⟨rfl, -⟩ := ht
  exact .setThread rfl rfl rfl

theorem asthreadResEvInit_same (w : MwWorker) (a : Addr) :
    Meets (asthreadResEvInit w a) (SameSched w) LocalFault := by
  refine (w.res_meets a).bind fun r _ => ?_
  split
  · exact .of_tm rfl rfl rfl
  · exact .refl w

theorem asthreadResEvAdd_same (w : MwWorker) (a : Addr) (ev : BitVec 32) :
    Meets (asthreadResEvAdd w a ev) (SameSched w) LocalFault := by
  refine (w.res_meets a).bind fun r _ => ?_
  split
  · exact .of_tm rfl rfl rfl
  · exact .refl w

theorem asthreadResEvDel_same (w : MwWorker) (a : Addr) :
    Meets (asthreadResEvDel w a) (SameSched w) LocalFault := by
  refine (w.res_meets a).bind fun r _ => ?_
  split
  · exact .refl w
  · split
    · exact .of_tm rfl rfl rfl
    · exact .refl w

theorem SameSched.foldlM {ι : Type} {f : MwWorker → ι → WRun MwWorker}
    (hf : ∀ w x, Meets (f w x) (SameSched w) LocalFault) (l : List ι) (w : MwWorker) :
    Meets (l.foldlM f w) (SameSched w) LocalFault :=
  Meets.foldlM (I := fun _ => SameSched w)
    (fun x _ b hb => (hf b x).imp fun _ h => hb.trans h) (.refl w)

theorem Meets.same {w : MwWorker} {x : WRun MwWorker} {f : MwWorker → WRun MwWorker}
    (hx : Meets x (SameSched w) LocalFault) (hf : ∀ w', Meets (f w') (SameSched w') LocalFault) :
    Meets (x >>= f) (SameSched w) LocalFault :=
  hx.bind fun w' hw' => (hf w').imp fun _ h => hw'.trans h

theorem Meets.after {w w' : MwWorker} {x : WRun MwWorker} (hx : Meets x (SameSched w') LocalFault)
    (hw : SameSched w w') : Meets x (SameSched w) LocalFault :=
  hx.imp fun _ h => hw.trans h

theorem asthreadRemoveResFromEpfd_same (w : MwWorker) (th : Addr) :
    Meets (asthreadRemoveResFromEpfd w th) (SameSched w) LocalFault :=
  (w.thread_meets th).bind fun _ _ => SameSched.foldlM asthreadResEvDel_same _ w

theorem thRemoveResFromEpfd_same (w : MwWorker) (th : Addr) :
    Meets (thRemoveResFromEpfd w th) (SameSched w) LocalFault := by
  refine (w.thread_meets th).bind fun t _ => ?_
  split
  · exact asthreadRemoveResFromEpfd_same w th
  · exact .refl w

theorem unlinkRes_same (w : MwWorker) (a : Addr) :
    Meets (unlinkRes w a) (SameSched w) LocalFault := by
  refine (w.res_meets a).bind fun r _ => ?_
  split
  · exact .refl w
  · exact asthreadResDelFromTh_same w a _

theorem closeRes_same (w : MwWorker) (a : Addr) :
    Meets (closeRes w a) (SameSched w) LocalFault := by
  refine (w.res_meets a).bind fun r _ => ?_
  split
  · exact close_same w _
  · exact .refl w

theorem lcfSocketClose_same (w : MwWorker) (u : Addr) :
    Meets (lcfSocketClose w u) (SameSched w) LocalFault := by
  unfold lcfSocketClose
  split
  · exact trivial
  · split
    · exact .refl w
    · split
      · exact .refl w
      · refine (unlinkRes_same w _).same fun w1 => (closeRes_same w1 _).same fun w2 =>
          (recycleRes_same w2 _).same fun w3 => ?_
        exact .of_tm rfl rfl rfl

theorem lcfSocketGc_same (w : MwWorker) (u : Addr) :
    Meets (lcfSocketGc w u) (SameSched w) LocalFault :=
  (lcfSocketClose_same w u).same fun _ => SameSched.of_tm rfl rfl rfl

theorem lcfSocketNew_same (w : MwWorker) (th u : Addr) (malloc : Option Addr)
    (connect : Option Int) :
      Meets (lcfSocketNew w th u malloc connect) (SameSched w) LocalFault := by
  unfold lcfSocketNew
  split
  · exact trivial
  · dsimp only
    split
    · exact .of_tm rfl rfl rfl
    · split
      · exact trivial
      · split
        · exact .of_tm rfl rfl rfl
        · refine Meets.same ((openFd_same _ _).after (.of_tm rfl rfl rfl)) fun w1 => ?_
          refine Meets.same ((asthreadResInit_same _ _).after (.of_tm rfl rfl rfl)) fun w2 => ?_
          refine (asthreadResAddToTh_same w2 _ th).same fun w3 =>
            (asthreadResEvInit_same w3 _).same fun w4 => ?_
          exact .of_tm rfl rfl rfl

theorem evBeginLoop_same (th : Addr) (socks : List (Addr × BitVec 32)) (w : MwWorker) :
    Meets (evBeginLoop th socks w) (SameSched w) LocalFault := by
  induction socks generalizing w with
  | nil => exact .refl w
  | cons s socks ih =>
      obtain ⟨u, ev⟩ := s
      unfold evBeginLoop
      split
      · exact trivial
      · split
        · exact .refl w
        · split
          · exact trivial
          · split
            · exact .refl w
            · exact Meets.same ((asthreadResEvAdd_same _ _ ev).after (.of_tm rfl rfl rfl)) ih

theorem runAct_same (th : Addr) (w : MwWorker) (a : LuaAct) :
    Meets (runAct th w a) (SameSched w) LocalFault := by
  cases a with
  | getMsock u =>
      simp only [runAct, lcfSocketGetMsock]
      split
      · exact trivial
      · exact (w.thread_meets th).bind fun _ _ => SameSched.of_tm rfl rfl rfl
  | socketNew u malloc connect => exact lcfSocketNew_same w th u malloc connect
  | close u => exact lcfSocketClose_same w u
  | gc u => exact lcfSocketGc_same w u
  | evBegin socks complete =>
      refine (evBeginLoop_same th socks w).same fun w1 => ?_
      split
      · refine (w1.thread_meets th).bind fun t ht => ?_
        obtain ⟨rfl, -⟩ := ht
        exact .setThread rfl rfl rfl
      · exact .refl w1
  | evEnd =>
      refine (w.thread_meets th).bind fun t ht => ?_
      obtain ⟨rfl, -⟩ := ht
      split
      · exact .refl w
      · exact (asthreadRemoveResFromEpfd_same _ th).after (.setThread rfl rfl rfl)

theorem luaCollect_same (lua : Lua) (w : MwWorker) :
    Meets (luaCollect lua w) (SameSched w) LocalFault :=
  Meets.after (SameSched.foldlM lcfSocketGc_same _ _) (.of_tm rfl rfl rfl)

theorem freeRes_same (w : MwWorker) (a : Addr) : Meets (freeRes w a) (SameSched w) LocalFault := by
  refine (w.res_meets a).bind fun r _ => ?_
  have hres : ∀ w : MwWorker, ∀ r, SameSched w (w.setRes a r) := fun _ _ => .of_tm rfl rfl rfl
  dsimp only
  split
  · exact ((hres w _).trans (close_same _ _)).trans (hres _ _)
  · exact hres w _

theorem newMfdRes_same (w : MwWorker) (th res : Addr) (fd : Int) (n : Nat) :
    Meets (newMfdRes w th res fd n) (SameSched w) LocalFault := by
  refine Meets.same ((asthreadResInit_same _ _).after (.of_tm rfl rfl rfl)) fun w1 => ?_
  refine (asthreadResAddToTh_same w1 _ th).same fun w2 =>
    (asthreadResEvInit_same w2 _).same fun w3 => (w3.thread_meets th).bind fun t ht => ?_
  obtain ⟨rfl, -⟩ := ht
  have hset : SameSched w3 (w3.setThread th { w3.tm.threads th with mfdRes := some res }) :=
    .setThread rfl rfl rfl
  exact hset.trans (.of_tm rfl rfl rfl)

/-! ## Threads that come and go -/

namespace Sched

variable {w : MwWorker} {members : Addr → List Addr} {out : List Addr}

theorem not_member (h : Sched w members out) {th : Addr} (hnum : w.number th = none) :
    (∀ p, th ∉ members p) ∧ th ∉ out ∧ th ∉ w.stopThreads := by
  refine ⟨?_, ?_, ?_⟩
  · intro p hp
    have := (h.member p th hp).2.1
    rw [hnum] at this
    cases this
  · intro ho
    have := (h.outside th ho).1
    rw [hnum] at this
    cases this
  · intro hs
    have := ((h.stopped th).mp hs).1
    rw [hnum] at this
    cases this

theorem setUnused (h : Sched w members out) {th : Addr} (hnum : w.number th = none) (t : AsThread) :
    Sched (w.setThread th t) members out := by
  obtain ⟨hmem, hout, hstop⟩ := h.not_member hnum
  have hother : ∀ x, x ≠ th → (w.setThread th t).tm.threads x = w.tm.threads x :=
    fun x hx => ThreadMem.setThread_of_ne _ _ hx
  have hne : ∀ x, (w.number x).isSome → x ≠ th := by
    rintro x hx rfl
    rw [hnum] at hx
    cases hx
  refine ⟨?_, ?_, ?_, ?_, ?_, h.out_nodup, ?_, h.stop_nodup⟩
  · refine h.trees.congr (fun _ _ _ => rfl) rfl fun p y hy => ?_
    rw [ThreadMem.et, hother y fun he => hmem p (he ▸ hy), ThreadMem.et]
  · intro p x hx
    rw [hother x fun he => hmem p (he ▸ hx)]
    exact h.member p x hx
  · intro x hx hn p
    rw [hother x (hne x hn)]
    exact h.pool_iff x hx hn p
  · intro x hx hn hs
    rw [hother x (hne x hn)] at hs
    exact h.waiting x hx hn hs
  · intro x hx
    rw [hother x fun he => hout (he ▸ hx)]
    exact h.outside x hx
  · intro x
    refine (h.stopped x).trans (and_congr_right fun hn => ?_)
    rw [hother x (hne x hn)]

/-- A thread that has just been made is in no tree. -/
theorem birth (h : Sched w members out) {th : Addr} (hnum : w.number th = none) (n : Nat)
    (ht : (w.tm.threads th).status ≠ .stop) :
    Sched { w with number := Function.update w.number th (some n) } members (th :: out) := by
  obtain ⟨hmem, hout, hstop⟩ := h.not_member hnum
  have hother : ∀ x, x ≠ th → Function.update w.number th (some n) x = w.number x :=
    fun x hx => Function.update_of_ne hx _ _
  have hsome : ∀ x, (w.number x).isSome → (Function.update w.number th (some n) x).isSome := by
    intro x hx
    by_cases hxth : x = th
    · subst hxth
      rw [Function.update_self]
      rfl
    · rwa [hother x hxth]
  refine ⟨h.trees, ?_, ?_, ?_, ?_, List.nodup_cons.mpr ⟨hout, h.out_nodup⟩, ?_, h.stop_nodup⟩
  · intro p x hx
    obtain ⟨hp, hn, hs⟩ := h.member p x hx
    exact ⟨hp, hsome x hn, hs⟩
  · intro x hx hn p
    have hxth : x ≠ th := fun he => hx (he ▸ .head _)
    dsimp only at hn
    rw [hother x hxth] at hn
    exact h.pool_iff x (fun ho => hx (.tail _ ho)) hn p
  · intro x hx hn hs
    have hxth : x ≠ th := fun he => hx (he ▸ .head _)
    dsimp only at hn
    rw [hother x hxth] at hn
    exact h.waiting x (fun ho => hx (.tail _ ho)) hn hs
  · intro x hx
    rcases List.mem_cons.mp hx with rfl | hx
    · refine ⟨?_, ht, hmem⟩
      dsimp only
      rw [Function.update_self]
      rfl
    · obtain ⟨hn, hs, hp⟩ := h.outside x hx
      exact ⟨hsome x hn, hs, hp⟩
  · intro x
    dsimp only
    by_cases hxth : x = th
    · subst hxth
      exact iff_of_false hstop fun hs => ht hs.2
    · rw [hother x hxth]
      exact h.stopped x

/-- The first of the stopped threads is freed, and is in no tree and not in the array any
more. -/
theorem death {th : Addr} {rest : List Addr}
    (h : Sched { w with stopThreads := th :: rest } members out) :
    Sched { w with
      number := Function.update w.number th none
      stopThreads := rest } members out := by
  obtain ⟨hnum, hst⟩ := (h.stopped th).mp (.head _)
  obtain ⟨hth, hrest⟩ := List.nodup_cons.mp h.stop_nodup
  have hother : ∀ x, (w.tm.threads x).status ≠ .stop ∨ x ≠ th →
      Function.update w.number th none x = w.number x := by
    intro x hx
    refine Function.update_of_ne ?_ _ _
    rintro rfl
    exact hx.elim (fun hs => hs hst) fun hne => hne rfl
  have hback : ∀ x, (Function.update w.number th none x).isSome → (w.number x).isSome := by
    intro x hx
    by_cases hxth : x = th
    · subst hxth
      exact hnum
    · rwa [hother x (.inr hxth)] at hx
  refine ⟨h.trees, ?_, fun x hx hn => h.pool_iff x hx (hback x hn), ?_, ?_, h.out_nodup, ?_, hrest⟩
  · intro p x hx
    have hx' := h.member p x hx
    dsimp only at hx' ⊢
    rwa [hother x (.inl hx'.2.2)]
  · intro x hx hn hs
    dsimp only at hn hs
    rw [hother x (.inl hs)] at hn
    exact h.waiting x hx hn hs
  · intro x hx
    have hx' := h.outside x hx
    dsimp only at hx' ⊢
    rwa [hother x (.inl hx'.2.1)]
  · intro x
    have hx := h.stopped x
    dsimp only at hx ⊢
    by_cases hxth : x = th
    · subst hxth
      rw [Function.update_self]
      exact iff_of_false hth fun hs => nomatch hs.1
    · rw [hother x (.inr hxth), ← hx, List.mem_cons]
      exact (or_iff_right hxth).symm

end Sched

@[simp] theorem wbind_ok {α β : Type} (a : α) (f : α → WRun β) :
    ((Except.ok a : WRun α) >>= f) = f a := rfl

/-- What `asthread_th_init` makes of a block that has been allocated, when it
has written `t` there. -/
def MwWorker.startThread (w : MwWorker) (th : Addr) (t : AsThread) (lthread : Bool) (n : Nat) :
    MwWorker :=
  { w.setThread th t with
    number := Function.update w.number th (some n)
    curTid := w.curTid + if lthread then 1 else 0 }

theorem MwWorker.startThread_number (w : MwWorker) (th : Addr) (t : AsThread) (lthread : Bool)
    (n : Nat) : (w.startThread th t lthread n).number th = some n :=
  Function.update_self ..

theorem asthreadThInit_writes (w : MwWorker) (th : Addr) (lthread : Bool) (n : Nat) :
    ∃ t, asthreadThInit { w with number := Function.update w.number th (some n) } th lthread
        = (w.startThread th t lthread n, if lthread then w.curTid + 1 else -1)
      ∧ (lthread = true → t.status = .ready ∧ t.resl = []) := by
  cases lthread with
  | true => exact ⟨_, rfl, fun _ => ⟨rfl, rfl⟩⟩
  | false =>
      refine ⟨w.tm.threads th, ?_, fun h => absurd h (by simp)⟩
      simp [asthreadThInit, MwWorker.startThread, MwWorker.setThread, ThreadMem.setThread,
        Function.update_eq_self]

/-- The rule for `newThread`: it is told what the collection leaves, and asks for what
follows it when there is no block and no thread, when there is a block but no thread is
made, and when one is. -/
theorem newThread_bind {lua : Lua} {w : MwWorker} {c : Conn} {E : WFault → Prop}
    {Q : MwWorker → Prop} {P : MwWorker × Option Addr → Prop} (henv : E .env) (hnull : E .null)
    (hcollect : w.fds c.fd = none → Meets (luaCollect lua { w with
      fds := Function.update w.fds c.fd (some w.next), next := w.next + 1 }) Q E)
    (hblank : ∀ w2, Q w2 → c.th = none → c.lthread = false → P (w2, none))
    (hnone : ∀ th t w2, w.number th = none → Q w2 → ¬(c.lthread = true ∧ w2.curTid + 1 ≠ -1) →
      P ({ w2.startThread th t c.lthread w.next with
        number := Function.update w2.number th none }.note (.threadRecycle w.next), none))
    (hsome : ∀ th t w2 res, w.number th = none → Q w2 → (c.lthread = true ∧ w2.curTid + 1 ≠ -1) →
      t.status = .ready → t.resl = [] → w2.ress res = none →
      Meets (newMfdRes (w2.startThread th t c.lthread w.next) th res c.fd w.next)
        (fun w' => P (w', some th)) E) :
    Meets (newThread lua w c) P E := by
  have halloc : ∀ (w' : MwWorker) m, Meets (w'.alloc m) (fun a => ¬w'.InUse a) E := by
    intro w' m
    unfold MwWorker.alloc
    split
    · exact hnull
    · split
      · exact henv
      · assumption
  unfold newThread MwWorker.openFd
  dsimp only
  split
  · exact henv
  rename_i hopen
  have hfd : w.fds c.fd = none := Option.not_isSome_iff_eq_none.mp hopen
  rw [wbind_ok]
  split
  · rename_i hblock
    refine (hcollect hfd).bind fun w2 hw2 => ?_
    cases hth : c.lthread with
    | true => exact hnull
    | false => exact hblank w2 hw2 hblock hth
  · refine (halloc _ c.th).bind fun th hth => ?_
    have hnum : w.number th = none := Option.not_isSome_iff_eq_none.mp fun hs => hth (.inl hs)
    refine (hcollect hfd).bind fun w2 hw2 => ?_
    obtain ⟨t, hinit, hready⟩ := asthreadThInit_writes w2 th c.lthread w.next
    rw [hinit]
    dsimp only
    have htid : (if c.lthread = true then w2.curTid + 1 else -1) = -1
        ↔ ¬(c.lthread = true ∧ w2.curTid + 1 ≠ -1) := by
      split <;> simp [*]
    by_cases hmade : c.lthread = true ∧ w2.curTid + 1 ≠ -1
    · rw [if_neg fun h => htid.mp h hmade]
      obtain ⟨hst, hresl⟩ := hready hmade.1
      refine (halloc _ c.res).bind fun res hres => ?_
      have hfree : w2.ress res = none :=
        Option.not_isSome_iff_eq_none.mp fun hs => hres (.inr (.inl hs))
      exact (hsome th t w2 res hnum hw2 hmade hst hresl hfree).bind fun w' h => h
    · rw [if_pos (htid.mpr hmade)]
      have hback : Function.update (w2.startThread th t c.lthread w.next).number th none
          = Function.update w2.number th none := Function.update_idem ..
      simp only [MwWorker.recycleThread, MwWorker.startThread_number, hback]
      exact hnone th t w2 hnum hw2 hmade

theorem SameSched.setBlock {w w' : MwWorker} (h : SameSched w w') (th : Addr) (t : AsThread) :
    SameSched (w.setThread th t) (w'.setThread th t) := by
  refine ⟨h.nodes, h.pools, h.number, h.stopThreads, ?_⟩
  intro x
  by_cases hx : x = th
  · subst hx
    rw [MwWorker.setThread, MwWorker.setThread, ThreadMem.setThread_self, ThreadMem.setThread_self]
    exact ⟨rfl, rfl, rfl⟩
  · rw [MwWorker.setThread, MwWorker.setThread, ThreadMem.setThread_of_ne _ _ hx,
      ThreadMem.setThread_of_ne _ _ hx]
    exact h.threads x

/-- What `handle_accept` leaves up to `thread_resume`: nothing has been written
where `memp_alloc` has answered NULL, and else a block that was in no use, which
may be a thread now. -/
def Made (w : MwWorker) (p : MwWorker × Option Addr) : Prop :=
  p.2 = none ∧ SameSched w p.1
  ∨ ∃ th t, w.number th = none
    ∧ (p.2 = none ∧ SameSched (w.setThread th t) p.1
      ∨ p.2 = some th ∧ t.status ≠ .stop ∧ ∃ n,
        SameSched { w.setThread th t with number := Function.update w.number th (some n) } p.1)

theorem newThread_made (lua : Lua) (w : MwWorker) (c : Conn) :
    Meets (newThread lua w c) (Made w) LocalFault := by
  refine newThread_bind (Q := SameSched w) trivial trivial
    (fun _ => (luaCollect_same lua _).after (.of_tm rfl rfl rfl)) ?_ ?_ ?_
  · intro w2 h2 _ _
    exact .inl ⟨rfl, h2⟩
  · intro th t w2 hnum h2 _
    have hblock := h2.setBlock th t
    refine .inr ⟨th, t, hnum, .inl ⟨rfl, hblock.nodes, hblock.pools, ?_, hblock.stopThreads,
      hblock.threads⟩⟩
    change Function.update w2.number th none = w.number
    rw [h2.number, ← hnum, Function.update_eq_self]
  · intro th t w2 res hnum h2 _ hready _ _
    have hblock := h2.setBlock th t
    have hst : t.status ≠ .stop := by
      rw [hready]
      decide
    refine (newMfdRes_same _ th res c.fd w.next).imp fun w' h' =>
      .inr ⟨th, t, hnum, .inr ⟨rfl, hst, w.next, SameSched.trans ?_ h'⟩⟩
    exact ⟨hblock.nodes, hblock.pools, congrArg (fun f => Function.update f th _) h2.number,
      hblock.stopThreads, hblock.threads⟩

/-- A thread is made, and is in no tree yet, or none is, and the others are where
they were. -/
theorem Made.sched {w : MwWorker} {members : Addr → List Addr} {out : List Addr}
    (h : Sched w members out) {p : MwWorker × Option Addr} (hp : Made w p) :
    p.2 = none ∧ Sched p.1 members out ∨ ∃ th, p.2 = some th ∧ Sched p.1 members (th :: out) := by
  rcases hp with ⟨hnone, hsame⟩ | ⟨th, t, hnum, hcase⟩
  · exact .inl ⟨hnone, h.congr hsame⟩
  have hset := h.setUnused hnum t
  rcases hcase with ⟨hnone, hsame⟩ | ⟨hth, hst, n, hsame⟩
  · exact .inl ⟨hnone, hset.congr hsame⟩
  · refine .inr ⟨th, hth, (hset.birth hnum n ?_).congr hsame⟩
    dsimp only [MwWorker.setThread]
    rw [ThreadMem.setThread_self]
    exact hst

/-- What `release_thread` leaves. -/
structure Freed (w : MwWorker) (th : Addr) (w' : MwWorker) : Prop where
  number : w'.number = Function.update w.number th none
  same : SameSched w { w' with number := w.number }

theorem releaseThread_freed (lua : Lua) (w : MwWorker) (th : Addr) :
    Meets (releaseThread lua w th) (Freed w th) LocalFault := by
  have hfree : Meets (asthreadThFree lua w th) (SameSched w) LocalFault := by
    unfold asthreadThFree
    split
    · exact trivial
    · refine Meets.same ((luaCollect_same lua _).after (.of_tm rfl rfl rfl)) fun w1 => ?_
      exact (w1.thread_meets th).bind fun t _ => SameSched.foldlM freeRes_same _ w1
  refine hfree.bind fun w1 h1 => ?_
  have hres : Meets (recycleMfdRes w1 th) (SameSched w1) LocalFault := by
    refine (w1.thread_meets th).bind fun t _ => ?_
    split
    · exact .refl w1
    · exact recycleRes_same w1 _
  refine hres.bind fun w2 h2 => ?_
  unfold MwWorker.recycleThread
  split
  · exact trivial
  · have h12 := h1.trans h2
    exact ⟨by rw [← h12.number]; rfl, h12.nodes, h12.pools, rfl, h12.stopThreads, h12.threads⟩

/-! ## Properties that the functions on resources keep -/

theorem MwWorker.thread_eq {w : MwWorker} {th : Addr} (h : (w.number th).isSome) :
    w.thread th = .ok (w.tm.threads th) := by
  obtain ⟨n, hn⟩ := Option.isSome_iff_exists.mp h
  rw [MwWorker.thread, hn]

/-- `J` is kept by all that a handler does besides moving threads, up to the faults `E`.
What is shown once for such a `J` is used for the ownership of blocks and for the interest
sets. -/
structure Upholds (lua : Lua) (J : MwWorker → Prop) (E : WFault → Prop) : Prop where
  core : ∀ {w w'}, SameCore w w' → J w → J w'
  resumed : ∀ {w th}, J w → J { w with waits := Function.update w.waits th none }
  act : ∀ {w th n args a}, a ∈ (lua n args).acts → J w → (w.number th).isSome →
    Meets (runAct th w a) J E
  wait : ∀ {w th a} k ev, J w → (w.number th).isSome → (w.ress a).isSome →
    Meets (asthreadResEvAdd (noteWait w th a k) a ev) J E
  remove : ∀ {w th}, J w → (w.number th).isSome → Meets (asthreadRemoveResFromEpfd w th) J E
  fresh : ∀ {w} c, J w → Meets (newThread lua w c) (fun p => J p.1) E
  release : ∀ {w th}, J w → (w.number th).isSome → Meets (releaseThread lua w th) J E
  script : E .script
  overflow : E .overflow

/-- The state after a thread that was out has gone somewhere. -/
structure Gone (J : MwWorker → Prop) (w : MwWorker) (out : List Addr) (th : Addr)
    (w' : MwWorker) : Prop where
  sched : ∃ members, Sched w' members (out.erase th)
  keeps : J w'
  number : w'.number = w.number
  nodes : ∀ y ∈ out, y ≠ th → w'.tm.nodes y = w.tm.nodes y

/-- What a script leaves as it was while its thread runs: all that `Sched` looks at, and
`J`. -/
structure Runs (J : MwWorker → Prop) (w : MwWorker) (w' : MwWorker) : Prop where
  same : SameSched w w'
  keeps : J w'

section

variable {lua : Lua} {J : MwWorker → Prop} {E : WFault → Prop} {w : MwWorker}
  {members : Addr → List Addr} {out : List Addr} {th : Addr}

theorem Gone.before {w' w'' : MwWorker} (h : Gone J w' out th w'') (hsame : SameSched w w') :
    Gone J w out th w'' := by
  refine ⟨h.sched, h.keeps, h.number.trans hsame.number, ?_⟩
  intro y hy hne
  rw [h.nodes y hy hne, hsame.nodes]

theorem Gone.after {w' w'' : MwWorker} (h : Gone J w out th w') (hsame : SameSched w' w'')
    (hw : J w'') : Gone J w out th w'' := by
  obtain ⟨members, hsched⟩ := h.sched
  refine ⟨⟨members, hsched.congr hsame⟩, hw, hsame.number.trans h.number, ?_⟩
  intro y hy hne
  rw [hsame.nodes, h.nodes y hy hne]

/-- A thread that is out goes to a pool, with a new deadline. -/
theorem toPool_flow (hJ : Upholds lua J E) (h : Sched w members out) (hth : th ∈ out) (hw : J w)
    (et : Int) {st : ThStatus} (hst : st ≠ .stop) {p : Addr} (hp : p = ioPool ∨ p = sleepPool) :
    Ensures (fun k => addToPool k
        (w.setThread th { w.tm.threads th with et := et, status := st }) th p)
      (Gone J w out th) E := by
  have hcore : SameCore w (w.setThread th { w.tm.threads th with et := et, status := st }) :=
    .setThread rfl rfl rfl
  obtain ⟨w', members', hrun, hsched, hmoved⟩ :=
    addToPool_spec
      (h.setThread (t := { w.tm.threads th with et := et, status := st }) hth hst) hth hp
  refine ⟨_, hrun, ⟨members', hsched⟩, hJ.core hmoved.core (hJ.core hcore hw), ?_, hmoved.nodes⟩
  exact hmoved.core.number

theorem asthreadThToStop_flow (hJ : Upholds lua J E) (h : Sched w members out) (hth : th ∈ out)
    (hw : J w) : Ensures (fun k => asthreadThToStop k w th) (Gone J w out th) E := by
  have hnum := (h.outside th hth).1
  have hrun : ∀ k, asthreadThToStop k w th = asthreadThToStop 0 w th := by
    intro k
    simp only [asthreadThToStop, asthreadThAddToArray, MwWorker.thread_eq hnum, wbind_ok]
    have hnone : ((w.tm.setThread th { w.tm.threads th with status := .stop, pool := none }).threads
        th).pool = none := by rw [ThreadMem.setThread_self]
    simp only [MwWorker.setThread, asthreadThDelFromPool, hnone]
  simp only [hrun]
  have hspec := asthreadThToStop_spec h hth 0
  refine .meets ((hspec.imp_error fun e he => he ▸ hJ.overflow).imp fun w' hw' => ?_)
  exact ⟨⟨members, hw'.1⟩, hJ.core hw'.2.core hw, hw'.2.core.number, hw'.2.nodes⟩

/-- The rule for `thYieldForIo`: it is told what the thread's way to the pool leaves, and
asks for what follows it with a resource in use. -/
theorem thYieldForIo_meets {Q P : MwWorker → Prop} {k : Nat} {T : LuaStack} {now : Int}
    {kont : Kont} (hscript : E .script)
    (hpool : ∀ et, Meets (asthreadThToIowait k w th et ioPool) Q E)
    (hwait : ∀ w1 a ev, Q w1 → (w1.ress a).isSome →
      Meets (asthreadResEvAdd (noteWait w1 th a kont) a ev) P E) :
    Meets (thYieldForIo k w th T now kont) P E := by
  refine (hpool _).bind fun w1 h1 => ?_
  cases (T.top 3).toUserdata with
  | none => exact hscript
  | some a =>
      cases hr : w1.ress a with
      | none =>
          simp only [hr]
          exact hscript
      | some r =>
          simp only [hr]
          exact hwait w1 a _ h1 (by rw [hr]; rfl)

/-- The rule for `afterResume`, by what may become of the thread: it waits for IO, sleeps,
or is stopped. -/
theorem afterResume_meets {P : MwWorker → Prop} {k : Nat} {run : LuaRun}
    (hio : ∀ T kont, Meets (thYieldForIo k w th T run.now kont) P E)
    (hsleep : ∀ T, Meets (thYieldForSleep k w th T run.now) P E)
    (hstop : Meets (asthreadThToStop k w th) P E) : Meets (afterResume k w th run) P E := by
  unfold afterResume
  cases run.result with
  | yield T kont =>
      dsimp only
      split
      · exact hio T kont
      · split
        · exact hsleep T
        · split
          · exact hsleep T
          · exact hstop
  | ok => exact hstop
  | error => exact hstop

theorem thYieldForIo_flow (hJ : Upholds lua J E) (h : Sched w members out) (hth : th ∈ out)
    (hw : J w) (T : LuaStack) (now : Int) (kont : Kont) :
    Ensures (fun k => thYieldForIo k w th T now kont) (Gone J w out th) E := by
  have hnum := (h.outside th hth).1
  simp only [thYieldForIo, asthreadThToIowait, MwWorker.thread_eq hnum, wbind_ok]
  refine (toPool_flow hJ h hth hw _ (by decide) (.inl rfl)).bind fun w1 h1 => ?_
  cases hT : (T.top 3).toUserdata with
  | none => exact .throw hJ.script
  | some a =>
      cases hr : w1.ress a with
      | none =>
          simp only [hr]
          exact .throw hJ.script
      | some r =>
          simp only [hr]
          have hnum1 : (w1.number th).isSome := by rw [h1.number]; exact hnum
          have hsome : (w1.ress a).isSome := by rw [hr]; rfl
          refine .meets (((hJ.wait kont _ h1.keeps hnum1 hsome).and
            (asthreadResEvAdd_same _ a _)).imp fun w2 h2 => ?_)
          have hsame : SameSched w1 (noteWait w1 th a kont) := .of_tm rfl rfl rfl
          exact h1.after (hsame.trans h2.2) h2.1

theorem thYieldForSleep_flow (hJ : Upholds lua J E) (h : Sched w members out) (hth : th ∈ out)
    (hw : J w) (T : LuaStack) (now : Int) :
    Ensures (fun k => thYieldForSleep k w th T now) (Gone J w out th) E := by
  have hnum := (h.outside th hth).1
  simp only [thYieldForSleep, asthreadThToSleep, MwWorker.thread_eq hnum, wbind_ok]
  exact toPool_flow hJ h hth hw _ (by decide) (.inr rfl)

theorem afterResume_flow (hJ : Upholds lua J E) (h : Sched w members out) (hth : th ∈ out)
    (hw : J w) (run : LuaRun) : Ensures (fun k => afterResume k w th run) (Gone J w out th) E := by
  unfold afterResume
  cases run.result with
  | yield T kont =>
      refine .ite (fun _ => thYieldForIo_flow hJ h hth hw T _ kont) fun _ => .ite ?_
        fun _ => .ite ?_ ?_
      · intro _
        exact thYieldForSleep_flow hJ h hth hw T _
      · intro _
        exact thYieldForSleep_flow hJ h hth hw T _
      · intro _
        exact asthreadThToStop_flow hJ h hth hw
  | ok => exact asthreadThToStop_flow hJ h hth hw
  | error => exact asthreadThToStop_flow hJ h hth hw

/-- The acts of a script leave the threads where they are, and keep `J`. -/
theorem runActs_flow (hJ : Upholds lua J E) (hnum : (w.number th).isSome) (hw : J w) (n : Nat)
    (args : LuaStack) : Meets ((lua n args).acts.foldlM (runAct th) w) (Runs J w) E := by
  have hloop : ∀ (acts : List LuaAct) (w' : MwWorker), (∀ a ∈ acts, a ∈ (lua n args).acts) →
      Runs J w w' →
      Meets (acts.foldlM (runAct th) w') (Runs J w) E := by
    intro acts
    induction acts with
    | nil => exact fun w' _ h => h
    | cons a acts ih =>
        intro w' hacts h
        rw [List.foldlM_cons]
        have hnum' : (w'.number th).isSome := by rw [h.same.number]; exact hnum
        have hact := hJ.act (hacts a (.head _)) h.keeps hnum'
        refine (hact.and (runAct_same th w' a)).bind fun w2 h2 => ?_
        exact ih w2 (fun b hb => hacts b (.tail _ hb)) ⟨h.same.trans h2.2, h2.1⟩
  exact hloop _ w (fun _ h => h) ⟨.refl w, hw⟩

/-- A thread that is resumed goes to a pool or is stopped, and so is not out any more. -/
theorem threadResume_flow (hJ : Upholds lua J E) (h : Sched w members out) (hth : th ∈ out)
    (hw : J w) (args : LuaStack) :
    Ensures (fun k => threadResume lua k w th args) (Gone J w out th) E := by
  obtain ⟨hnum, hst, -⟩ := h.outside th hth
  simp only [threadResume, MwWorker.thread_eq hnum, wbind_ok, if_neg hst]
  let w1 : MwWorker := { w with turn := w.turn + 1, waits := Function.update w.waits th none }
  have hw1 : J w1 := by
    refine hJ.resumed (w := { w with turn := w.turn + 1 }) (hJ.core ?_ hw)
    exact ⟨rfl, rfl, rfl, rfl, rfl, rfl, rfl, rfl, rfl, rfl, fun _ => ⟨rfl, rfl, rfl⟩⟩
  have hsame1 : SameSched w w1 := .of_tm rfl rfl rfl
  refine (Ensures.meets (runActs_flow (w := w1) hJ hnum hw1 w.turn args)).bind fun w2 h2 => ?_
  have hsame2 := hsame1.trans h2.same
  exact (afterResume_flow hJ (h.congr hsame2) hth h2.keeps _).imp fun _ h3 => h3.before hsame2

/-! ## The handlers -/

/-- Between two handlers no thread is out. -/
def Settled (J : MwWorker → Prop) (w : MwWorker) : Prop := (∃ members, Sched w members []) ∧ J w

theorem thRemoveResFromEpfd_flow (hJ : Upholds lua J E) (hnum : (w.number th).isSome) (hw : J w) :
    Meets (thRemoveResFromEpfd w th) (Runs J w) E := by
  simp only [thRemoveResFromEpfd, MwWorker.thread_eq hnum, wbind_ok]
  split
  · exact ((hJ.remove hw hnum).and (asthreadRemoveResFromEpfd_same w th)).imp
      fun w1 h1 => ⟨h1.2, h1.1⟩
  · exact ⟨.refl w, hw⟩

/-- An event on a resource of a thread that has not been freed: the thread is taken from its
pool, is resumed, and goes somewhere again. -/
theorem handleFd_flow (hJ : Upholds lua J E) (h : Settled J w) {res : Addr} {r : AsThreadRes}
    (hres : w.ress res = some r) (hr : r.th = some th) (hnum : (w.number th).isSome)
    (args : LuaStack) : Ensures (fun k => handleFd lua k w res args) (Settled J) E := by
  obtain ⟨⟨members, hsched⟩, hw⟩ := h
  have hread : w.res res = .ok r := by rw [MwWorker.res, hres]
  simp only [handleFd, hread, wbind_ok, hr, MwWorker.thread_eq hnum]
  refine .ite (fun _ => .pure ⟨⟨members, hsched⟩, hw⟩) fun hst => ?_
  obtain ⟨w1, members1, hrun1, hsched1, hcore1, -⟩ :=
    delFromPool_spec hsched List.not_mem_nil hnum hst
  have hnum1 : (w1.number th).isSome := by rw [hcore1.number]; exact hnum
  have hdel : Ensures (fun k => delFromPool k w th) (· = w1) E := ⟨_, hrun1, rfl⟩
  refine hdel.bind fun _ he => he ▸ ?_
  refine (Ensures.meets
    (thRemoveResFromEpfd_flow hJ hnum1 (hJ.core hcore1 hw))).bind fun w2 h2 => ?_
  refine (threadResume_flow hJ (hsched1.congr h2.same) (.head _) h2.keeps args).imp fun w3 h3 => ?_
  obtain ⟨members3, hsched3⟩ := h3.sched
  rw [List.erase_cons_head] at hsched3
  exact ⟨⟨members3, hsched3⟩, h3.keeps⟩

theorem acceptConn_flow (hJ : Upholds lua J E) (h : Settled J w) (c : Conn) :
    Ensures (fun k => acceptConn lua k w c) (Settled J) E := by
  obtain ⟨⟨members, hsched⟩, hw⟩ := h
  refine (Ensures.meets ((hJ.fresh c hw).and (newThread_made lua w c))).bind fun p hp => ?_
  obtain ⟨hw1, hmade⟩ := hp
  have hcase := hmade.sched hsched
  obtain ⟨w1, o⟩ := p
  rcases hcase with ⟨rfl, hsched1⟩ | ⟨th, rfl, hsched1⟩
  · exact .pure ⟨⟨members, hsched1⟩, hw1⟩
  · refine (threadResume_flow hJ hsched1 (.head _) hw1 []).imp fun w2 h2 => ?_
    obtain ⟨members2, hsched2⟩ := h2.sched
    rw [List.erase_cons_head] at hsched2
    exact ⟨⟨members2, hsched2⟩, h2.keeps⟩

theorem handleAccept_flow (hJ : Upholds lua J E) (h : Settled J w) (conns : List Conn) :
    Ensures (fun k => handleAccept lua k w conns) (Settled J) E :=
  Ensures.foldlM (I := fun _ => Settled J) (fun c _ _ h' => acceptConn_flow hJ h' c) h

/-- `process_stop_threads` frees the stopped threads; when the list has been reset no thread
is out, and none is in the array. -/
theorem processStopThreads_flow (hJ : Upholds lua J E) (h : Settled J w) :
    Meets (processStopThreads lua w) (fun w' => Settled J { w' with stopThreads := [] }) E := by
  obtain ⟨⟨members, hsched⟩, hw⟩ := h
  have hcore : ∀ (w' : MwWorker) xs, SameCore w' { w' with stopThreads := xs } := fun w' xs =>
    ⟨rfl, rfl, rfl, rfl, rfl, rfl, rfl, rfl, rfl, rfl, fun _ => ⟨rfl, rfl, rfl⟩⟩
  refine Meets.imp (Q := fun w' => Sched { w' with stopThreads := [] } members [] ∧ J w') ?_
    fun w' h' => ⟨⟨members, h'.1⟩, hJ.core (hcore w' []) h'.2⟩
  refine Meets.foldlM (I := fun rest w' => Sched { w' with stopThreads := rest } members [] ∧ J w')
    (fun th rest w1 h1 => ?_) ⟨hsched, hw⟩
  obtain ⟨hsched1, hw1⟩ := h1
  obtain ⟨hnum1, -⟩ := (hsched1.stopped th).mp (.head _)
  refine ((hJ.release hw1 hnum1).and (releaseThread_freed lua w1 th)).imp fun w2 h2 => ?_
  obtain ⟨hw2, hfreed⟩ := h2
  refine ⟨hsched1.death.congr ?_, hw2⟩
  exact ⟨hfreed.same.nodes, hfreed.same.pools, hfreed.number, rfl, hfreed.same.threads⟩

end

end Artorias
