import Artorias.WorkerInterest

/-!
# The descriptors of the connections

For each connection `handle_accept` opens a descriptor, and then makes a thread
and the resource that is to close it; when there is no thread it recycles the
block and goes on. `handleAccept_settles_iff`: in the end every descriptor is
with one thread or has been closed if and only if a thread has been made for
each.

The scripts are any, also those that leave a socket dangling when it cannot
connect. So little can be said of who holds a resource, and `FdsAt` says nothing
of it: only that resources, lists and open descriptors agree.
-/

namespace Artorias

/-! ## What agrees whatever the scripts do -/

structure FdsAt (w : MwWorker) : Prop where
  links : LinkedAt w w.reslOf
  opened : ∀ a r, w.ress a = some r → r.freef = true → w.fds r.d = some r.number
  threads : ∀ th n, w.number th = some n → n < w.next
  log : ∀ e ∈ w.log, ∀ n, e.number = some n → n < w.next

theorem Owner.fdsAt {w : MwWorker} {freeing : Option Addr} (h : Owner w freeing) : FdsAt w := by
  refine ⟨h.1.linkedAt, h.2.opened, fun th n hn => ?_, h.2.old⟩
  obtain ⟨a, r, -, hr, rfl⟩ := thread_has h.1 hn
  exact (h.1.old a r hr).2

/-- `FdsAt` holds whenever `handle_accept` is called, as long as every socket made
so far has connected: each handler keeps it, and the loop of `process` runs nothing
but handlers. -/
theorem LoopReach.fdsAt {lua : Lua} (hlua : Connects lua) {w : MwWorker} (h : LoopReach lua w) :
    FdsAt w :=
  (h.tidy hlua).1.fdsAt

/-- There is a resource of that number. -/
def Numbered (w : MwWorker) (n : Nat) : Prop := ∃ a r, w.ress a = some r ∧ r.number = n

/-- `w'` comes after `w`, no thread having been freed: a resource of a thread is
as it was or has been closed, and nothing but that has. -/
structure KeepsFds (w w' : MwWorker) : Prop where
  fdsAt : FdsAt w'
  next : w.next ≤ w'.next
  log : ∀ e n, e.number = some n → e ∈ w.log → e ∈ w'.log
  live : ∀ th n, w.number th = some n → w'.number th = some n
  born : ∀ th n, w'.number th = some n → w.number th = some n ∨ w.next ≤ n
  holds : ∀ th a n, Has w (.thread th) a n → Has w' (.thread th) a n
  keeps : ∀ a r th, w.ress a = some r → r.th = some th →
    (∃ r', w'.ress a = some r' ∧ r'.th = some th ∧ r'.d = r.d ∧ r'.number = r.number)
      ∨ .fdClose r.number ∈ w'.log
  fresh : ∀ n, Numbered w' n → Numbered w n ∨ w.next ≤ n
  events : ∀ e n, e.number = some n → e ∈ w'.log → e ∈ w.log ∨ Numbered w n ∨ w.next ≤ n
  fds : ∀ fd n, n ≠ 0 → w.fds fd = some n → w'.fds fd = some n ∨ Numbered w n ∨ w.next ≤ n

section

variable {w w1 w' w'' : MwWorker} {a th u : Addr} {n : Nat}

namespace KeepsFds

theorem trans (hw : FdsAt w) (h : KeepsFds w w') (h' : KeepsFds w' w'') : KeepsFds w w'' := by
  have hback : ∀ n, Numbered w' n ∨ w'.next ≤ n → Numbered w n ∨ w.next ≤ n := by
    rintro n (hn | hn)
    · exact h.fresh n hn
    · exact .inr (Nat.le_trans h.next hn)
  refine ⟨h'.fdsAt, Nat.le_trans h.next h'.next, fun e n he hm => h'.log e n he (h.log e n he hm),
    fun th n hn => h'.live th n (h.live th n hn), fun th n hn => ?_,
    fun th a n ho => h'.holds th a n (h.holds th a n ho), fun a r th hr hth => ?_,
    fun n hn => hback n (h'.fresh n hn), fun e n he hm => ?_, fun fd n hne hfd => ?_⟩
  · rcases h'.born th n hn with hn' | hn'
    · exact h.born th n hn'
    · exact .inr (Nat.le_trans h.next hn')
  · rcases h.keeps a r th hr hth with ⟨r', hr', hth', hd', hn'⟩ | hm
    · rcases h'.keeps a r' th hr' hth' with ⟨r'', hr'', hth'', hd'', hn''⟩ | hm
      · exact .inl ⟨r'', hr'', hth'', hd''.trans hd', hn''.trans hn'⟩
      · exact .inr (hn' ▸ hm)
    · exact .inr (h'.log _ _ (number_fdClose (hw.links.old a r hr).1) hm)
  · rcases h'.events e n he hm with hm' | hn'
    · exact h.events e n he hm'
    · exact .inr (hback n hn')
  · rcases h.fds fd n hne hfd with hfd' | hn'
    · exact (h'.fds fd n hne hfd').imp_right (hback n)
    · exact .inr hn'

theorem of_same (hw : FdsAt w) (h : SameOwners w w') : KeepsFds w w' := by
  have hnumbered : ∀ n, Numbered w' n → Numbered w n := by
    rintro n ⟨a, r', hr', rfl⟩
    obtain ⟨r, hr, -, -, -, hn⟩ := h.res_of hr'
    exact ⟨a, r, hr, hn.symm⟩
  have hlinks : LinkedAt w' w'.reslOf := by
    refine (h.linkedAt hw.links).congr fun th hn => h.reslOf ?_
    rwa [h.number] at hn
  refine ⟨⟨hlinks, fun a r' hr' hf => ?_, fun th n hn => ?_, fun e he n hn => ?_⟩, h.next,
    fun e n he hm => (h.mem_log he).mpr hm, fun th n hn => by rw [h.number, hn],
    fun th n hn => .inl (by rwa [h.number] at hn), fun th a n ho => (h.has _ a n).mpr ho,
    fun a r th hr hth => ?_, fun n hn => .inl (hnumbered n hn),
    fun e n he hm => .inl ((h.mem_log he).mp hm), fun fd n hne hfd => .inl (h.fds fd n hne hfd)⟩
  · obtain ⟨r, hr, hf0, -, hd, hn⟩ := h.res_of hr'
    rw [hd, hn]
    exact h.fds _ _ (hw.links.old a r hr).1 (hw.opened a r hr (hf0.symm.trans hf))
  · rw [h.number] at hn
    exact Nat.lt_of_lt_of_le (hw.threads th n hn) h.next
  · rw [h.mem_log hn] at he
    exact Nat.lt_of_lt_of_le (hw.log e he n hn) h.next
  · obtain ⟨r', hr', -, hth', hd, hn⟩ := h.res hr
    exact .inl ⟨r', hr', hth'.trans hth, hd, hn⟩

theorem refl (hw : FdsAt w) : KeepsFds w w := .of_same hw (.refl w)

theorem same (hw : FdsAt w) (h : KeepsFds w w') (h' : SameOwners w' w'') : KeepsFds w w'' :=
  h.trans hw (.of_same h.fdsAt h')

theorem setSock (h : KeepsFds w w') (u : Addr) (s : Option LmSocket) :
    KeepsFds w (w'.setSock u s) :=
  { h with fdsAt := { h.fdsAt with links := { h.fdsAt.links with } } }

/-- Recycling a resource is harmless to the descriptors: if a thread has the resource, it is
open by `FdsAt`, and it is closed before its block goes back. -/
theorem of_drops {r : AsThreadRes} (hw : FdsAt w) (h : Drops w w' a r) : KeepsFds w w' := by
  have hof : ∀ {b r'}, w'.ress b = some r' → b ≠ a ∧ w.ress b = some r' := of_update_none h.ress
  have hlt := (hw.links.old a r h.res).2
  have hnum : Numbered w r.number := ⟨a, r, h.res, rfl⟩
  have hmem : ∀ e ∈ w'.log, e ∈ w.log ∨ e = .fdClose r.number ∨ e = .resRecycle r.number := by
    intro e he
    rw [h.log] at he
    rcases List.mem_append.mp he with he | he
    · exact .inl he
    · split at he
      · exact .inr (by simpa using he)
      · exact .inr (.inr (by simpa using he))
  have hclosed : r.freef = true → .fdClose r.number ∈ w'.log := by
    intro hf
    rw [h.log, if_pos hf]
    exact List.mem_append_right _ (.head _)
  refine ⟨⟨hw.links.drop h.ress h.number h.next h.resl, fun b r' hr' hf => ?_, fun x m hm => ?_,
    fun e he m hm => ?_⟩, Nat.le_of_eq h.next.symm, fun e m _ hm => ?_, fun x m hm => ?_,
    fun x m hm => ?_, fun x b m ho => ?_, fun b r' x hr' hx => ?_, fun m hm => ?_,
      fun e m he hm => ?_,
    fun fd m _ hfd => ?_⟩
  · obtain ⟨hb, hr⟩ := hof hr'
    exact h.fds _ _ (fun hn => hb (hw.links.uniq b a r' r hr h.res hn)) (hw.opened b r' hr hf)
  · rw [h.number] at hm
    rw [h.next]
    exact hw.threads x m hm
  · rw [h.next]
    rcases hmem e he with he | rfl | rfl
    · exact hw.log e he m hm
    · rw [number_fdClose (hw.links.old a r h.res).1, Option.some.injEq] at hm
      exact hm ▸ hlt
    · cases hm
      exact hlt
  · rw [h.log]
    exact List.mem_append_left _ hm
  · rw [h.number, hm]
  · rw [h.number] at hm
    exact .inl hm
  · exact ⟨by rw [h.number, ho.1], by rw [h.mfd, ho.2]⟩
  · by_cases hb : b = a
    · subst hb
      have hr : w.ress b = some r := h.res
      rw [hr, Option.some.injEq] at hr'
      subst hr'
      refine .inr (hclosed ?_)
      rw [hw.links.freef b r hr, hx]
      rfl
    · refine .inl ⟨r', ?_, hx, rfl, rfl⟩
      rw [h.ress, Function.update_of_ne hb, hr']
  · obtain ⟨b, r', hr', hn⟩ := hm
    exact .inl ⟨b, r', (hof hr').2, hn⟩
  · rcases hmem e hm with hm | rfl | rfl
    · exact .inl hm
    · rw [number_fdClose (hw.links.old a r h.res).1, Option.some.injEq] at he
      exact .inr (.inl (he ▸ hnum))
    · cases he
      exact .inr (.inl hnum)
  · by_cases hm : m = r.number
    · exact .inr (.inl (hm ▸ hnum))
    · exact .inl (h.fds fd m hm hfd)

/-- Making a resource is harmless too: its number is one that `w` did not have, so nothing
that is said of the resources of `w` is said of it. -/
theorem create {o : Holder} (h : KeepsFds w w1) (hc : Creates w1 w' o th a n)
    (hn : w.next ≤ n) : KeepsFds w w' := by
  obtain ⟨r0, -, -, -, hn0, hfd0, hcase⟩ := hc.res_cases
  have hmade : ∀ e ∈ w'.log, e ∈ w1.log ∨ e.number = some n := by
    intro e he
    rw [hc.log] at he
    rcases List.mem_append.mp he with he | he
    · exact .inl he
    · obtain rfl := List.mem_singleton.mp he
      cases o <;> exact .inr rfl
  have hnumbered : ∀ m, Numbered w' m → Numbered w1 m ∨ m = n := by
    rintro m ⟨b, r, hr, rfl⟩
    rcases hcase b r hr with ⟨-, rfl⟩ | ⟨-, hr⟩
    · exact .inr hn0
    · exact .inl ⟨b, r, hr, rfl⟩
  refine ⟨⟨hc.linkedAt h.fdsAt.links, fun b r hr hf => ?_, fun x m hm => ?_, fun e he m hm => ?_⟩,
    hc.next ▸ h.next, fun e m he hm => ?_, fun x m hm => (hc.number x m).mpr (.inl (h.live x m hm)),
    fun x m hm => ?_, fun x b m ho => (hc.has _ b m).mpr (.inl (h.holds x b m ho)),
    fun b r x hr hx => ?_, fun m hm => ?_, fun e m he hm => ?_, fun fd m hne hfd => ?_⟩
  · rw [hc.fds]
    rcases hcase b r hr with ⟨-, rfl⟩ | ⟨-, hr⟩
    · rw [hfd0, hn0]
    · exact h.fdsAt.opened b r hr hf
  · rw [hc.next]
    rcases (hc.number x m).mp hm with hm | ⟨-, rfl⟩
    · exact h.fdsAt.threads x m hm
    · exact hc.unused.old
  · rw [hc.next]
    rcases hmade e he with he | he
    · exact h.fdsAt.log e he m hm
    · rw [he, Option.some.injEq] at hm
      exact hm ▸ hc.unused.old
  · rw [hc.log]
    exact List.mem_append_left _ (h.log e m he hm)
  · rcases (hc.number x m).mp hm with hm | ⟨-, rfl⟩
    · exact h.born x m hm
    · exact .inr hn
  · rcases h.keeps b r x hr hx with ⟨r', hr', hrest⟩ | hm
    · exact .inl ⟨r', hc.res_stays hr', hrest⟩
    · refine .inr ?_
      rw [hc.log]
      exact List.mem_append_left _ hm
  · rcases hnumbered m hm with hm | rfl
    · exact h.fresh m hm
    · exact .inr hn
  · rcases hmade e hm with hm | hm
    · exact h.events e m he hm
    · rw [he, Option.some.injEq] at hm
      exact .inr (.inr (hm ▸ hn))
  · rw [hc.fds]
    exact h.fds fd m hne hfd

theorem note (h : KeepsFds w w') {e : WorkerEvent} (he : e.number = some n) (hn : w.next ≤ n)
    (hlt : n < w'.next) : KeepsFds w (w'.note e) := by
  have hmem : ∀ e' ∈ (w'.note e).log, e' ∈ w'.log ∨ e' = e := by
    intro e' hm
    simpa [MwWorker.note] using hm
  refine { h with
    fdsAt := { h.fdsAt with links := { h.fdsAt.links with }, log := fun e' hm m he' => ?_ }
    log := fun e' m he' hm => List.mem_append_left _ (h.log e' m he' hm)
    keeps := fun b r x hr hx => (h.keeps b r x hr hx).imp_right (List.mem_append_left _)
    events := fun e' m he' hm => ?_ }
  · rcases hmem e' hm with hm | rfl
    · exact h.fdsAt.log e' hm m he'
    · rw [he, Option.some.injEq] at he'
      exact he' ▸ hlt
  · rcases hmem e' hm with hm | rfl
    · exact h.events e' m he' hm
    · rw [he, Option.some.injEq] at he'
      exact .inr (.inr (he' ▸ hn))

end KeepsFds

/-! ## Scripts -/

theorem lcfSocketClose_keeps (hw : FdsAt w) (u : Addr) :
    Meets (lcfSocketClose w u) (KeepsFds w) AnyFault := by
  by_cases hu : ∃ a n, Has w (.userdata u) a n
  · obtain ⟨a, n, hu⟩ := hu
    cases hr : w.ress a with
    | none =>
        -- The socket dangles.
        have hsock : w.socks u = some ⟨some a, .custom, n⟩ := hu
        simp only [lcfSocketClose, hsock, unlinkRes, MwWorker.res, hr]
        exact trivial
    | some r =>
        obtain ⟨w', hrun, hd, -⟩ := lcfSocketClose_drops hw.links hu hr (hw.opened a r hr)
        rw [hrun]
        exact .of_drops hw hd
  · have hnot : ∀ a n, ¬Has w (.userdata u) a n := fun a n ha => hu ⟨a, n, ha⟩
    refine (lcfSocketClose_idle hnot trivial).imp fun w' hw' => ?_
    subst hw'
    exact .refl hw

theorem lcfSocketGc_keeps (hw : FdsAt w) (u : Addr) :
    Meets (lcfSocketGc w u) (KeepsFds w) AnyFault :=
  (lcfSocketClose_keeps hw u).bind fun _ h => h.setSock u none

theorem luaCollect_keeps (hw : FdsAt w) (lua : Lua) :
    Meets (luaCollect lua w) (KeepsFds w) AnyFault := by
  have hturn : SameOwners w { w with turn := w.turn + 1 } := { SameOwners.refl w with }
  refine Meets.foldlM (I := fun _ => KeepsFds w) (fun u _ w1 h1 => ?_) (.of_same hw hturn)
  exact (lcfSocketGc_keeps h1.fdsAt u).imp fun w2 h2 => h1.trans hw h2

theorem lcfSocketNew_keeps (hw : FdsAt w) (hlive : (w.number th).isSome) (u : Addr)
    (malloc : Option Addr) (connect : Option Int) :
    Meets (lcfSocketNew w th u malloc connect) (KeepsFds w) AnyFault := by
  cases malloc with
  | none => exact (lcfSocketNew_none w th u connect trivial).imp fun _ h => .of_same hw h
  | some res =>
      cases connect with
      | some fd =>
          refine (lcfSocketNew_creates (hw.links.unused_next hw.log fd) hlive
            trivial).imp fun w' h => ?_
          obtain ⟨-, w1, w2, h1, hc, h2⟩ := h
          have hmade := (KeepsFds.of_same hw h1).create hc (Nat.le_refl _)
          exact hmade.same hw h2
      | none =>
          -- "connect error": a block is recycled whose number has never been anything.
          unfold lcfSocketNew
          split
          · exact trivial
          · dsimp only
            split
            · exact trivial
            · let w1 : MwWorker := { w with next := w.next + 1 }
              have h1 : SameOwners w w1 := { SameOwners.refl w with next := Nat.le_succ _ }
              have hnote : KeepsFds w (w1.note (.resRecycle w.next)) :=
                (KeepsFds.of_same hw h1).note rfl (Nat.le_refl _) (Nat.lt_succ_self _)
              exact hnote.setSock u _

theorem asthreadResEvDel_any (w : MwWorker) (a : Addr) :
    Meets (asthreadResEvDel w a) (SameOwners w) AnyFault := by
  cases hr : w.ress a with
  | none =>
      simp only [asthreadResEvDel, MwWorker.res, hr]
      exact trivial
  | some r => exact asthreadResEvDel_owners (by rw [hr]; rfl)

theorem runAct_keeps (hw : FdsAt w) (hlive : (w.number th).isSome) (a : LuaAct) :
    Meets (runAct th w a) (KeepsFds w) AnyFault := by
  cases a with
  | getMsock u => exact (lcfSocketGetMsock_owners hlive trivial).imp fun _ h => .of_same hw h
  | socketNew u malloc connect => exact lcfSocketNew_keeps hw hlive u malloc connect
  | close u => exact lcfSocketClose_keeps hw u
  | gc u => exact lcfSocketGc_keeps hw u
  | evBegin socks complete =>
      refine (evBeginLoop_owners trivial trivial socks w).bind fun w1 h1 => ?_
      split
      · refine (thread_any w1 th).bind fun t ht => ?_
        subst ht
        have hset : SameOwners w1 (w1.setThread th { w1.tm.threads th with mode := .loopSocks }) :=
          .of_setThread fun _ => ⟨rfl, rfl⟩
        exact .of_same hw (h1.trans hset)
      · exact .of_same hw h1
  | evEnd =>
      refine (thread_any w th).bind fun t ht => ?_
      subst ht
      split
      · exact .refl hw
      · have hset : SameOwners w (w.setThread th { w.tm.threads th with mode := .simple }) :=
          .of_setThread fun _ => ⟨rfl, rfl⟩
        refine Meets.imp (Q := SameOwners w) ?_ fun _ h => .of_same hw h
        refine (thread_any _ th).bind fun t _ => ?_
        refine Meets.foldlM (I := fun _ => SameOwners w) (fun b _ w1 h1 => ?_) hset
        exact (asthreadResEvDel_any w1 b).imp fun w2 h2 => h1.trans h2

theorem thYieldForIo_owners (k : Nat) (w : MwWorker) (th : Addr) (T : LuaStack) (now : Int)
    (kont : Kont) : Meets (thYieldForIo k w th T now kont) (SameOwners w) AnyFault := by
  refine thYieldForIo_meets trivial (asthreadThToIowait_core k w th · ioPool)
    fun w1 a ev h1 hsome => ?_
  have hwait := (SameOwners.of_core h1).trans (noteWait_owners w1 th a kont)
  have hsome' : ((noteWait w1 th a kont).ress a).isSome := hsome
  exact (asthreadResEvAdd_owners hsome' ev).imp fun w2 h2 => hwait.trans h2

theorem afterResume_owners (k : Nat) (w : MwWorker) (th : Addr) (run : LuaRun) :
    Meets (afterResume k w th run) (SameOwners w) AnyFault := by
  refine afterResume_meets (thYieldForIo_owners k w th · _ ·) (fun T => ?_) ?_
  · exact (thYieldForSleep_core k w th T _).imp fun _ h => .of_core h
  · exact (asthreadThToStop_core k w th).imp fun _ h => .of_core h

theorem KeepsFds.alive (h : KeepsFds w w') (hlive : (w.number th).isSome) :
    (w'.number th).isSome := by
  obtain ⟨n, hn⟩ := Option.isSome_iff_exists.mp hlive
  rw [h.live th n hn]
  rfl

theorem threadResume_keeps (hw : FdsAt w) (lua : Lua) (k : Nat) (th : Addr) (args : LuaStack) :
    Meets (threadResume lua k w th args) (KeepsFds w) AnyFault := by
  refine Meets.bind ((w.thread_meets th).imp_error fun _ _ => trivial) fun t ht => ?_
  obtain ⟨rfl, hlive⟩ := ht
  split
  · exact .refl hw
  · let w1 : MwWorker := { w with turn := w.turn + 1, waits := Function.update w.waits th none }
    have h1 : SameOwners w w1 := { SameOwners.refl w with }
    have hacts : Meets ((lua w.turn args).acts.foldlM (runAct th) w1) (KeepsFds w) AnyFault := by
      refine Meets.foldlM (I := fun _ => KeepsFds w) (fun a _ w2 h2 => ?_) (.of_same hw h1)
      exact (runAct_keeps h2.fdsAt (h2.alive hlive) a).imp fun w3 h3 => h2.trans hw h3
    refine hacts.bind fun w2 h2 => ?_
    exact (afterResume_owners k w2 th _).imp fun w3 h3 => h2.same hw h3

end

/-! ## What becomes of a descriptor -/

/-- A descriptor that `new_fd_func` has returned, with its number, and whether
`memp_alloc` has given a block and `asthread_th_init` has made a thread for it. -/
structure Accepted where
  fd : Int
  number : Nat
  block : Bool
  made : Bool

/-- The descriptors that `handle_accept` gets, as it comes to them. -/
def accepted (lua : Lua) (k : Nat) : MwWorker → List Conn → List Accepted
  | _, [] => []
  | w, c :: conns =>
      ⟨c.fd, w.next, c.th.isSome, ((newThread lua w c).toOption.bind Prod.snd).isSome⟩
        :: ((acceptConn lua k w c).toOption.map fun w' => accepted lua k w' conns).getD []

/-- The descriptor is the `mfd_res` of `th`, and that is linked in `resl`. -/
def ServesFd (w : MwWorker) (p : Accepted) (th : Addr) : Prop :=
  (w.number th).isSome ∧ ∃ a r, (w.tm.threads th).mfdRes = some a ∧ a ∈ (w.tm.threads th).resl
    ∧ w.ress a = some r ∧ r.d = p.fd ∧ r.number = p.number

def FdSettled (w : MwWorker) (p : Accepted) : Prop :=
  (∃! th, ServesFd w p th) ∨ .fdClose p.number ∈ w.log

/-- The block that was to be the thread, if there was one, has been recycled, and
what is in use is not that one. -/
def BlockBack (w : MwWorker) (p : Accepted) : Prop :=
  (p.block = true → .threadRecycle p.number ∈ w.log) ∧ ∀ th, w.number th ≠ some p.number

/-- The descriptor has been left behind: it is still open, and there is no resource whose
freeing would close it. -/
structure Leaked (w : MwWorker) (p : Accepted) : Prop where
  opened : w.fds p.fd = some p.number
  old : p.number < w.next
  alone : ¬Numbered w p.number
  log : .fdClose p.number ∉ w.log

structure ConnFate (w : MwWorker) (p : Accepted) : Prop where
  pos : p.number ≠ 0
  made : p.made = true → FdSettled w p
  failed : p.made = false → Leaked w p ∧ BlockBack w p

section

variable {w w' : MwWorker} {p : Accepted} {th : Addr}

theorem ServesFd.unique (hw : FdsAt w) (h : ServesFd w p th) {x : Addr} (hx : ServesFd w p x) :
    x = th := by
  obtain ⟨hlive, a, r, -, ha, hr, -, hn⟩ := h
  obtain ⟨hlivex, b, rx, -, hb, hrx, -, hnx⟩ := hx
  obtain rfl := hw.links.uniq a b r rx hr hrx (hn.trans hnx.symm)
  obtain ⟨r1, hr1, hth⟩ := hw.links.linked th a hlive ha
  obtain ⟨r2, hr2, hthx⟩ := hw.links.linked x a hlivex hb
  rw [hr1, Option.some.injEq] at hr2
  rw [← hr2, hth, Option.some.injEq] at hthx
  exact hthx.symm

theorem FdSettled.of_serves (hw : FdsAt w) (h : ServesFd w p th) : FdSettled w p :=
  .inl ⟨th, h, fun _ hx => h.unique hw hx⟩

theorem FdSettled.kept (hw : FdsAt w) (hk : KeepsFds w w') (hpos : p.number ≠ 0)
    (h : FdSettled w p) : FdSettled w' p := by
  rcases h with ⟨th, hs, -⟩ | hm
  · obtain ⟨hlive, a, r, hmfd, ha, hr, hd, hn⟩ := hs
    obtain ⟨m, hm⟩ := Option.isSome_iff_exists.mp hlive
    obtain ⟨r0, hr0, hth⟩ := hw.links.linked th a hlive ha
    rw [hr, Option.some.injEq] at hr0
    subst hr0
    have hmfd' := (hk.holds th a m ⟨hm, hmfd⟩).2
    rcases hk.keeps a r th hr hth with ⟨r', hr', hth', hd', hn'⟩ | hclosed
    · obtain ⟨hlive', ha'⟩ := hk.fdsAt.links.owned a r' th hr' hth'
      exact .of_serves hk.fdsAt
        ⟨hlive', a, r', hmfd', ha', hr', hd'.trans hd, hn'.trans hn⟩
    · exact .inr (hn ▸ hclosed)
  · exact .inr (hk.log _ _ (number_fdClose hpos) hm)

theorem Leaked.not_settled (h : Leaked w p) : ¬FdSettled w p := by
  rintro (⟨th, ⟨-, a, r, -, -, hr, -, hn⟩, -⟩ | hm)
  · exact h.alone ⟨a, r, hr, hn⟩
  · exact h.log hm

theorem Leaked.kept (hk : KeepsFds w w') (hpos : p.number ≠ 0) (h : Leaked w p) : Leaked w' p := by
  have hno : ¬(Numbered w p.number ∨ w.next ≤ p.number) := by
    rintro (hn | hn)
    · exact h.alone hn
    · exact Nat.not_lt_of_le hn h.old
  refine ⟨?_, Nat.lt_of_lt_of_le h.old hk.next, fun hn => hno (hk.fresh _ hn), fun hm => ?_⟩
  · exact (hk.fds _ _ hpos h.opened).resolve_right hno
  · rcases hk.events _ _ (number_fdClose hpos) hm with hm | hn
    · exact h.log hm
    · exact hno hn

theorem BlockBack.kept (hk : KeepsFds w w') (hold : p.number < w.next) (h : BlockBack w p) :
    BlockBack w' p := by
  refine ⟨fun hb => hk.log _ _ rfl (h.1 hb), fun th hn => ?_⟩
  rcases hk.born th _ hn with hn | hn
  · exact h.2 th hn
  · exact Nat.not_lt_of_le hn hold

theorem ConnFate.kept (hw : FdsAt w) (hk : KeepsFds w w') (h : ConnFate w p) : ConnFate w' p :=
  ⟨h.pos, fun hm => (h.made hm).kept hw hk h.pos,
    fun hm => ⟨(h.failed hm).1.kept hk h.pos, (h.failed hm).2.kept hk (h.failed hm).1.old⟩⟩

theorem ConnFate.settled_iff (h : ConnFate w p) : FdSettled w p ↔ p.made = true := by
  refine ⟨fun hs => ?_, h.made⟩
  cases hm : p.made with
  | true => rfl
  | false => exact absurd hs (h.failed hm).1.not_settled

end

/-! ## The loop of `handle_accept` -/

section

variable {w w' : MwWorker}

theorem Unused.kept {n : Nat} (hk : KeepsFds w w') (h : Unused w n) : Unused w' n := by
  have hno : ¬(Numbered w n ∨ w.next ≤ n) := by
    rintro (⟨a, r, hr, hn⟩ | hn)
    · exact h.res a r hr hn
    · exact Nat.not_lt_of_le hn h.old
  refine ⟨h.pos, Nat.lt_of_lt_of_le h.old hk.next, fun a r hr hn => hno (hk.fresh n ⟨a, r, hr, hn⟩),
    fun e he hn => ?_⟩
  rcases hk.events e n hn he with he | hn'
  · exact h.log e he hn
  · exact hno hn'

theorem Unused.leaked {p : Accepted} (h : Unused w p.number) (hfd : w.fds p.fd = some p.number) :
    Leaked w p := by
  refine ⟨hfd, h.old, ?_, fun hm => h.log _ hm (number_fdClose h.pos)⟩
  rintro ⟨a, r, hr, hn⟩
  exact h.res a r hr hn

/-- What becomes of one connection before `thread_resume`: a thread that is made serves the
descriptor. On the way out without a thread the block, if there was one, goes back to the
pool, but the descriptor stays open, since nothing has been made that would close it. -/
theorem newThread_fate (hw : FdsAt w) (lua : Lua) (c : Conn) :
    Meets (newThread lua w c)
      (fun q => KeepsFds w q.1
        ∧ ConnFate q.1 ⟨c.fd, w.next, c.th.isSome, q.2.isSome⟩) AnyFault := by
  let w1 : MwWorker := { w with
    fds := Function.update w.fds c.fd (some w.next), next := w.next + 1 }
  have hunused1 : Unused w1 w.next := hw.links.unused_next hw.log c.fd
  have hcollect : w.fds c.fd = none → Meets (luaCollect lua w1)
      (fun w2 => KeepsFds w w2 ∧ Unused w2 w.next ∧ w2.fds c.fd = some w.next
        ∧ w2.number = w.number) AnyFault := by
    intro hfd
    have h1 : KeepsFds w w1 := .of_same hw (.openFd hfd)
    refine ((luaCollect_keeps h1.fdsAt lua).and (luaCollect_same lua w1)).imp fun w2 h2 => ?_
    have hopen : w1.fds c.fd = some w.next := Function.update_self ..
    have hunused2 := hunused1.kept h2.1
    refine ⟨h1.trans hw h2.1, hunused2, ?_, h2.2.number⟩
    rcases h2.1.fds c.fd _ hunused1.pos hopen with hfd2 | ⟨a, r, hr, hn⟩ | hn
    · exact hfd2
    · exact absurd hn (hunused1.res a r hr)
    · exact absurd hunused1.old (Nat.not_lt_of_le hn)
  have hfree : ∀ w2 : MwWorker, w2.number = w.number → ∀ x, w2.number x ≠ some w.next := by
    intro w2 hnumber2 x hx
    rw [hnumber2] at hx
    exact Nat.lt_irrefl _ (hw.threads x _ hx)
  refine newThread_bind trivial trivial hcollect ?_ ?_ ?_
  · rintro w2 ⟨hk2, hunused2, hfd2, hnumber2⟩ hblock -
    have hleak : Leaked w2 ⟨c.fd, w.next, c.th.isSome, false⟩ := hunused2.leaked hfd2
    have hback : BlockBack w2 ⟨c.fd, w.next, c.th.isSome, false⟩ :=
      ⟨fun hb => by simp [hblock] at hb, hfree w2 hnumber2⟩
    exact ⟨hk2, hunused1.pos, nofun, fun _ => ⟨hleak, hback⟩⟩
  · rintro th t w2 hnum ⟨hk2, hunused2, hfd2, hnumber2⟩ -
    have hnum2 : w2.number th = none := (congrFun hnumber2 th).trans hnum
    have hback : Function.update w2.number th none = w2.number := by
      rw [← hnum2, Function.update_eq_self]
    rw [hback]
    let w3 : MwWorker := { w2.startThread th t c.lthread w.next with number := w2.number }
    have hset : SameOwners w2 (w2.setThread th t) :=
      .of_setThread fun hn => by rw [hnum2] at hn; cases hn
    have h3 : SameOwners w2 w3 := { hset with }
    have hk3 := hk2.same hw h3
    have hunused3 := hunused2.kept (.of_same hk2.fdsAt h3)
    have hleak : Leaked w3 ⟨c.fd, w.next, c.th.isSome, false⟩ := hunused3.leaked hfd2
    refine ⟨hk3.note rfl (Nat.le_refl _) hunused3.old, hunused1.pos, fun hm => ?_,
      fun _ => ⟨{ hleak with log := fun hm => ?_ }, fun _ => ?_, hfree w2 hnumber2⟩⟩
    · cases hm
    · rcases List.mem_append.mp hm with hm | hm
      · exact hleak.log hm
      · cases List.mem_singleton.mp hm
    · exact List.mem_append_right _ (.head _)
  · rintro th t w2 res hnum ⟨hk2, hunused2, hfd2, hnumber2⟩ - - hresl hfreeRes
    have hnum2 : w2.number th = none := (congrFun hnumber2 th).trans hnum
    have hc := startThread_creates c.lthread hnum2 hfreeRes hunused2 hfd2 hresl
    have hlive : ((w2.startThread th t c.lthread w.next).number th).isSome := by
      rw [MwWorker.startThread_number]
      rfl
    refine (newMfdRes_owners hlive res c.fd w.next).imp fun w' h' => ?_
    have hk := (hk2.create hc (Nat.le_refl _)).same hw h'
    refine ⟨hk, hunused1.pos, fun _ => ?_, fun hm => by cases hm⟩
    have hself : (holdMfd (w2.startThread th t c.lthread w.next) th res c.fd w.next).ress res
        = some ⟨true, .idle, some th, c.fd, w.next⟩ := Function.update_self ..
    obtain ⟨r, hr, -, hth, hd, hn⟩ := h'.res hself
    have hholds := (h'.has (.thread th) res w.next).mpr ((hc.has _ _ _).mpr (.inr ⟨rfl, rfl, rfl⟩))
    obtain ⟨hlive', hmem⟩ := hk.fdsAt.links.owned res r th hr hth
    exact .of_serves hk.fdsAt ⟨hlive', res, r, hholds.2, hmem, hr, hd, hn⟩

theorem acceptConn_fate (hw : FdsAt w) {lua : Lua} {k : Nat} {c : Conn}
    (hrun : acceptConn lua k w c = .ok w') : KeepsFds w w'
      ∧ ConnFate w'
        ⟨c.fd, w.next, c.th.isSome, ((newThread lua w c).toOption.bind Prod.snd).isSome⟩ := by
  have hnew := newThread_fate hw lua c
  unfold acceptConn at hrun
  cases hmade : newThread lua w c with
  | error e =>
      rw [hmade] at hrun
      cases hrun
  | ok q =>
      obtain ⟨w1, th⟩ := q
      rw [hmade, wbind_ok] at hrun
      obtain ⟨hk1, hfate⟩ := hnew.of_ok hmade
      cases th with
      | none =>
          cases hrun
          exact ⟨hk1, hfate⟩
      | some th =>
          have hk2 := (threadResume_keeps hk1.fdsAt lua k th []).of_ok hrun
          exact ⟨hk1.trans hw hk2, hfate.kept hk1.fdsAt hk2⟩

theorem handleAccept_fates {lua : Lua} {k : Nat} {conns : List Conn} (hw : FdsAt w)
    (hrun : handleAccept lua k w conns = .ok w') :
    KeepsFds w w' ∧ ∀ p ∈ accepted lua k w conns, ConnFate w' p := by
  unfold handleAccept at hrun
  induction conns generalizing w with
  | nil =>
      cases hrun
      exact ⟨.refl hw, fun p hp => absurd hp List.not_mem_nil⟩
  | cons c conns ih =>
      rw [List.foldlM_cons] at hrun
      cases hconn : acceptConn lua k w c with
      | error e =>
          rw [hconn] at hrun
          cases hrun
      | ok w1 =>
          rw [hconn, wbind_ok] at hrun
          obtain ⟨hk1, hfate⟩ := acceptConn_fate hw hconn
          obtain ⟨hk2, hfates⟩ := ih hk1.fdsAt hrun
          refine ⟨hk1.trans hw hk2, fun p hp => ?_⟩
          rw [accepted, hconn] at hp
          rcases List.mem_cons.mp hp with rfl | hp
          · exact hfate.kept hk1.fdsAt hk2
          · exact hfates p hp

/-- Every connection gets its thread: there is a block and a Lua thread for it, and the tid
that it is given is not the one that stands for a failure. -/
def AllMake : BitVec 32 → List Conn → Prop
  | _, [] => True
  | curTid, c :: conns => c.Makes curTid ∧ AllMake (curTid + 1) conns

theorem accepted_made {lua : Lua} {k : Nat} {conns : List Conn}
    (hrun : handleAccept lua k w conns = .ok w') :
    (∀ p ∈ accepted lua k w conns, p.made = true) ↔ AllMake w.curTid conns := by
  unfold handleAccept at hrun
  induction conns generalizing w with
  | nil => exact iff_of_true (fun p hp => absurd hp List.not_mem_nil) trivial
  | cons c conns ih =>
      rw [List.foldlM_cons] at hrun
      cases hconn : acceptConn lua k w c with
      | error e =>
          rw [hconn] at hrun
          cases hrun
      | ok w1 =>
          rw [hconn, wbind_ok] at hrun
          have hmade : ((newThread lua w c).toOption.bind Prod.snd).isSome = true
              ↔ c.Makes w.curTid := by
            cases hnew : newThread lua w c with
            | error e =>
                rw [acceptConn, hnew] at hconn
                cases hconn
            | ok q => exact ((newThread_touches lua w c).of_ok hnew).2
          rw [accepted, hconn, AllMake, List.forall_mem_cons, hmade]
          refine and_congr_right fun hm => ?_
          have htouch := (acceptConn_touches lua k w c).of_ok hconn
          rw [if_pos hm] at htouch
          rw [← htouch.curTid]
          exact ih hrun

/-- When the loop ends, the block of every thread that was not made is back in the pool.
Every descriptor is the `mfd_res` of one thread, linked in its `resl`, or has been closed,
if and only if all the threads were made: the way out without a thread closes nothing. -/
theorem handleAccept_settles_iff {lua : Lua} {k : Nat} {conns : List Conn} (hw : FdsAt w)
    (hrun : handleAccept lua k w conns = .ok w') :
    (∀ p ∈ accepted lua k w conns, p.made = false → BlockBack w' p)
      ∧ ((∀ p ∈ accepted lua k w conns, FdSettled w' p) ↔ AllMake w.curTid conns) := by
  have hfates := (handleAccept_fates hw hrun).2
  constructor
  · intro p hp hm
    exact ((hfates p hp).failed hm).2
  · rw [← accepted_made hrun]
    exact forall₂_congr fun p hp => (hfates p hp).settled_iff

/-- Two connections, and a thread for each. -/
theorem handleAccept_settles_two : ∃ w', handleAccept idleLua 8 startWorker
      [⟨4, some 10, true, some 20⟩, ⟨5, some 11, true, some 21⟩] = .ok w'
    ∧ ∀ p ∈ accepted idleLua 8 startWorker
      [⟨4, some 10, true, some 20⟩, ⟨5, some 11, true, some 21⟩], FdSettled w' p := by
  have hmake : AllMake startWorker.curTid
      [⟨4, some 10, true, some 20⟩, ⟨5, some 11, true, some 21⟩] :=
    ⟨by decide, by decide, trivial⟩
  exact ⟨_, rfl, (handleAccept_settles_iff startWorker_begun.owner.fdsAt rfl).2.mpr hmake⟩

/-- There is no thread for the first of two connections: descriptor 4 stays open
and nobody has it. -/
theorem handleAccept_leaks : ∃ w', handleAccept idleLua 8 startWorker
      [⟨4, some 10, false, some 20⟩, ⟨5, some 10, true, some 20⟩] = .ok w'
    ∧ w'.fds 4 = some 1
    ∧ ¬∀ p ∈ accepted idleLua 8 startWorker
      [⟨4, some 10, false, some 20⟩, ⟨5, some 10, true, some 20⟩], FdSettled w' p := by
  refine ⟨_, rfl, rfl, fun hall => ?_⟩
  have hmem : ⟨4, 1, true, false⟩ ∈ accepted idleLua 8 startWorker
      [⟨4, some 10, false, some 20⟩, ⟨5, some 10, true, some 20⟩] := .head _
  have hfate := (handleAccept_fates startWorker_begun.owner.fdsAt rfl).2 _ hmem
  exact (hfate.failed rfl).1.not_settled (hall _ hmem)

end

end Artorias
