import Artorias.SocketLife
import Artorias.WorkerDrops

/-!
# What epoll watches

A resource has a status, and `epoll` has events for its descriptor. `Interest`
says how they agree, and that a thread that waits for one resource has no other
one in `AS_RSTATUS_EV`. Closing and freeing keep it whatever the state is
(`Shuts`); setting the status, and making a resource, keep it under conditions.
-/

namespace Artorias

/-- `th` waits for `x` in simple mode, and `b` is one of its resources. -/
def WaitsWith (w : MwWorker) (th : Addr) (x : Addr × Kont) (b : Addr) : Prop :=
  (w.number th).isSome ∧ (w.tm.threads th).mode = .simple ∧ w.waits th = some x
    ∧ b ∈ (w.tm.threads th).resl

structure Interest (w : MwWorker) : Prop where
  closed : ∀ fd, w.fds fd = none → w.epoll fd = none
  watched : ∀ a r, w.ress a = some r → r.freef = true →
    ∃ ev, w.epoll r.d = some (ev, a) ∧ (r.status = .idle → ev = 0)
  alone : ∀ th x b, WaitsWith w th x b → b ≠ x.1 →
    (w.ress b).map AsThreadRes.status ≠ some .ev

/-! ## Closing -/

/-- What is left in `w'` of threads, resources and descriptors is as it was: things have
been closed and recycled, and nothing else has happened. -/
structure Shuts (w w' : MwWorker) : Prop where
  fds : ∀ fd, w'.fds fd = w.fds fd ∧ w'.epoll fd = w.epoll fd
    ∨ w'.fds fd = none ∧ w'.epoll fd = none
  ress : ∀ a r', w'.ress a = some r' → ∃ r, w.ress a = some r ∧ r'.status = r.status ∧ r'.d = r.d
    ∧ (r'.freef = true → r.freef = true)
  wait : ∀ th x b, WaitsWith w' th x b → WaitsWith w th x b
  waits : ∀ th, w.waits th = none → w'.waits th = none
  log : ∀ e ∈ w.log, e ∈ w'.log

namespace Shuts

variable {w w' w'' : MwWorker}

theorem refl (w : MwWorker) : Shuts w w :=
  ⟨fun _ => .inl ⟨rfl, rfl⟩, fun _ r hr => ⟨r, hr, rfl, rfl, id⟩, fun _ _ _ h => h, fun _ h => h,
    fun _ h => h⟩

theorem trans (h : Shuts w w') (h' : Shuts w' w'') : Shuts w w'' := by
  refine ⟨?_, ?_, fun th x b hb => h.wait th x b (h'.wait th x b hb),
    fun th ht => h'.waits th (h.waits th ht), fun e he => h'.log e (h.log e he)⟩
  · intro fd
    rcases h'.fds fd with ⟨hfd', hep'⟩ | hnone'
    · rw [hfd', hep']
      exact h.fds fd
    · exact .inr hnone'
  · intro a r'' hr''
    obtain ⟨r', hr', hst', hd', hf'⟩ := h'.ress a r'' hr''
    obtain ⟨r, hr, hst, hd, hf⟩ := h.ress a r' hr'
    exact ⟨r, hr, hst'.trans hst, hd'.trans hd, fun hfree => hf (hf' hfree)⟩

theorem of_core (h : SameCore w w') : Shuts w w' := by
  refine ⟨fun fd => .inl ⟨by rw [h.fds], by rw [h.epoll]⟩, fun a r hr => ?_, fun th x b hb => ?_,
    fun th ht => by rw [h.waits, ht], fun e he => by rwa [h.log]⟩
  · rw [h.ress] at hr
    exact ⟨r, hr, rfl, rfl, id⟩
  · obtain ⟨hmode, -, hresl⟩ := h.threads th
    obtain ⟨hlive, hsimple, hwait, hmem⟩ := hb
    rw [h.number] at hlive
    rw [hmode] at hsimple
    rw [h.waits] at hwait
    rw [hresl] at hmem
    exact ⟨hlive, hsimple, hwait, hmem⟩

theorem setThread {th : Addr} {t : AsThread}
    (h : ∀ x b, w.waits th = some x → t.mode = .simple → b ∈ t.resl →
      (w.tm.threads th).mode = .simple ∧ b ∈ (w.tm.threads th).resl) :
    Shuts w (w.setThread th t) := by
  refine { refl w with wait := fun y x b hb => ?_ }
  obtain ⟨hlive, hsimple, hwait, hmem⟩ := hb
  by_cases hy : y = th
  · subst hy
    simp only [MwWorker.setThread, ThreadMem.setThread_self] at hsimple hmem
    obtain ⟨hsimple0, hmem0⟩ := h x b hwait hsimple hmem
    exact ⟨hlive, hsimple0, hwait, hmem0⟩
  · simp only [MwWorker.setThread, ThreadMem.setThread_of_ne _ _ hy] at hsimple hmem
    exact ⟨hlive, hsimple, hwait, hmem⟩

theorem setRes {a : Addr} {r r' : AsThreadRes} (hr : w.ress a = some r) (hst : r'.status = r.status)
    (hd : r'.d = r.d) (hf : r'.freef = true → r.freef = true) : Shuts w (w.setRes a r') := by
  refine { refl w with ress := fun b r'' hr'' => ?_ }
  simp only [MwWorker.setRes] at hr''
  by_cases hb : b = a
  · subst hb
    rw [Function.update_self] at hr''
    cases hr''
    exact ⟨r, hr, hst, hd, hf⟩
  · rw [Function.update_of_ne hb] at hr''
    exact ⟨r'', hr'', rfl, rfl, id⟩

theorem setSock (w : MwWorker) (u : Addr) (s : Option LmSocket) : Shuts w (w.setSock u s) :=
  { refl w with }

theorem note (w : MwWorker) (e : WorkerEvent) : Shuts w (w.note e) :=
  { refl w with log := fun _ he => List.mem_append_left _ he }

theorem close (w : MwWorker) (fd : Int) : Shuts w (w.close fd) := by
  unfold MwWorker.close
  split
  · exact .refl w
  · refine Shuts.trans ?_ (.note _ _)
    refine { refl w with fds := fun fd' => ?_ }
    by_cases hfd : fd' = fd
    · subst hfd
      exact .inr ⟨Function.update_self .., Function.update_self ..⟩
    · exact .inl ⟨Function.update_of_ne hfd .., Function.update_of_ne hfd ..⟩

theorem foldlM {ι : Type} {f : MwWorker → ι → WRun MwWorker}
    (hf : ∀ w x, Meets (f w x) (Shuts w) AnyFault) (l : List ι) (w : MwWorker) :
    Meets (l.foldlM f w) (Shuts w) AnyFault :=
  Meets.foldlM (I := fun _ => Shuts w) (fun x _ b hb => (hf b x).imp fun _ h => hb.trans h)
    (.refl w)

end Shuts

theorem recycleRes_shuts (w : MwWorker) (a : Addr) : Meets (w.recycleRes a) (Shuts w) AnyFault := by
  unfold MwWorker.recycleRes
  split
  · exact trivial
  · refine Shuts.trans ?_ (.note _ _)
    refine { Shuts.refl w with ress := fun b r' hr' => ?_ }
    by_cases hb : b = a
    · subst hb
      simp only [Function.update_self] at hr'
      cases hr'
    · simp only [Function.update_of_ne hb] at hr'
      exact ⟨r', hr', rfl, rfl, id⟩

theorem unlinkRes_shuts (w : MwWorker) (a : Addr) : Meets (unlinkRes w a) (Shuts w) AnyFault := by
  refine (res_any w a).bind fun r _ => ?_
  split
  · exact .refl w
  · rename_i th _
    refine (thread_any w th).bind fun t ht => ?_
    subst ht
    exact .setThread fun x b _ hsimple hb => ⟨hsimple, List.mem_of_mem_erase hb⟩

theorem closeRes_shuts (w : MwWorker) (a : Addr) : Meets (closeRes w a) (Shuts w) AnyFault := by
  refine (res_any w a).bind fun r _ => ?_
  split
  · exact .close w _
  · exact .refl w

theorem lcfSocketClose_shuts (w : MwWorker) (u : Addr) :
    Meets (lcfSocketClose w u) (Shuts w) AnyFault := by
  unfold lcfSocketClose
  split
  · exact trivial
  · split
    · exact .refl w
    · split
      · exact .refl w
      · refine (unlinkRes_shuts w _).bind fun w1 h1 => (closeRes_shuts w1 _).bind fun w2 h2 =>
          (recycleRes_shuts w2 _).bind fun w3 h3 => ?_
        exact ((h1.trans h2).trans h3).trans (.setSock w3 u _)

theorem lcfSocketGc_shuts (w : MwWorker) (u : Addr) :
    Meets (lcfSocketGc w u) (Shuts w) AnyFault := by
  refine (lcfSocketClose_shuts w u).bind fun w1 h1 => ?_
  exact h1.trans (.setSock w1 u none)

theorem luaCollect_shuts (lua : Lua) (w : MwWorker) :
    Meets (luaCollect lua w) (Shuts w) AnyFault := by
  have hturn : Shuts w { w with turn := w.turn + 1 } := { Shuts.refl w with }
  exact (Shuts.foldlM lcfSocketGc_shuts _ _).imp fun _ h => hturn.trans h

theorem freeRes_shuts (w : MwWorker) (a : Addr) : Meets (freeRes w a) (Shuts w) AnyFault := by
  refine (res_any w a).bind fun r hr => ?_
  have h1 : Shuts w (w.setRes a { r with th := none }) := .setRes hr rfl rfl id
  have hself : (w.setRes a { r with th := none }).ress a = some { r with th := none } :=
    Function.update_self ..
  dsimp only
  split
  · have h2 := Shuts.close (w.setRes a { r with th := none }) r.d
    have hself2 : ((w.setRes a { r with th := none }).close r.d).ress a
        = some { r with th := none } := by
      rw [← hself]
      unfold MwWorker.close
      split <;> rfl
    exact (h1.trans h2).trans (.setRes hself2 rfl rfl nofun)
  · exact h1

theorem releaseThread_shuts (lua : Lua) (w : MwWorker) (th : Addr) :
    Meets (releaseThread lua w th) (Shuts w) AnyFault := by
  have hfree : Meets (asthreadThFree lua w th) (Shuts w) AnyFault := by
    unfold asthreadThFree
    split
    · exact trivial
    · refine (luaCollect_shuts lua _).bind fun w1 h1 => (thread_any w1 th).bind fun t _ => ?_
      refine (Shuts.foldlM freeRes_shuts t.resl w1).imp fun w2 h2 => ?_
      exact ((Shuts.note w _).trans h1).trans h2
  refine hfree.bind fun w1 h1 => ?_
  have hmfd : Meets (recycleMfdRes w1 th) (Shuts w1) AnyFault := by
    refine (thread_any w1 th).bind fun t _ => ?_
    split
    · exact .refl w1
    · exact recycleRes_shuts w1 _
  refine hmfd.bind fun w2 h2 => ?_
  unfold MwWorker.recycleThread
  split
  · exact trivial
  · refine ((h1.trans h2).trans ?_).trans (.note _ _)
    refine { Shuts.refl w2 with wait := fun y x b hb => ?_ }
    obtain ⟨hlive, hrest⟩ := hb
    by_cases hy : y = th
    · subst hy
      simp only [Function.update_self] at hlive
      cases hlive
    · simp only [Function.update_of_ne hy] at hlive
      exact ⟨hlive, hrest⟩

/-! ## What keeps the interest sets -/

namespace Interest

variable {w w' : MwWorker} {a th : Addr}

/-- Closing keeps the interest sets, if the descriptors of what is open stay so. -/
theorem shuts (h : Interest w) (hs : Shuts w w')
    (hopen : ∀ a r, w'.ress a = some r → r.freef = true → w'.fds r.d = some r.number) :
    Interest w' := by
  refine ⟨?_, ?_, ?_⟩
  · intro fd hfd
    rcases hs.fds fd with ⟨hfd', hep'⟩ | ⟨-, hep'⟩
    · rw [hep']
      exact h.closed fd (hfd' ▸ hfd)
    · exact hep'
  · intro a r' hr' hf'
    obtain ⟨r, hr, hst, hd, hf⟩ := hs.ress a r' hr'
    obtain ⟨ev, hep, hidle⟩ := h.watched a r hr (hf hf')
    have hsome := hopen a r' hr' hf'
    rcases hs.fds r'.d with ⟨-, hep'⟩ | ⟨hnone, -⟩
    · refine ⟨ev, ?_, fun hi => hidle (hst ▸ hi)⟩
      rw [hep', hd, hep]
    · rw [hsome] at hnone
      cases hnone
  · intro th x b hb hne hev
    obtain ⟨r', hr', hst'⟩ := Option.map_eq_some_iff.mp hev
    obtain ⟨r, hr, hst, -⟩ := hs.ress b r' hr'
    refine h.alone th x b (hs.wait th x b hb) hne ?_
    rw [hr, Option.map_some, ← hst, hst']

/-- A resource in use is watched for other events: this keeps the interest sets, as long as
nobody waits for another resource with it. -/
theorem rewatch (h : Interest w) {f : Option Addr} (hw : Owner w f) {r : AsThreadRes}
    (hr : w.ress a = some r) (hf : r.freef = true) {ev : BitVec 32} {st : ResStatus}
    (hidle : st = .idle → ev = 0) (halone : st = .ev → ∀ th x, WaitsWith w th x a → a = x.1) :
    Interest ((w.watch r.d ev a).setRes a { r with status := st }) := by
  have hfd := hw.2.opened a r hr hf
  refine ⟨?_, ?_, ?_⟩
  · intro fd hnone
    have hne : fd ≠ r.d := by
      rintro rfl
      have hnone' : w.fds r.d = none := hnone
      rw [hfd] at hnone'
      cases hnone'
    exact (Function.update_of_ne hne ..).trans (h.closed fd hnone)
  · intro b s hs hfree
    simp only [MwWorker.setRes, MwWorker.watch] at hs ⊢
    by_cases hb : b = a
    · subst hb
      rw [Function.update_self] at hs
      cases hs
      exact ⟨ev, Function.update_self .., hidle⟩
    · rw [Function.update_of_ne hb] at hs
      rw [Function.update_of_ne (hw.2.fd_ne hw.1 hr hfd hs hfree hb)]
      exact h.watched b s hs hfree
  · intro th x b hb hne hev
    have hb0 : WaitsWith w th x b := hb
    simp only [MwWorker.setRes, MwWorker.watch] at hev
    by_cases hba : b = a
    · subst hba
      rw [Function.update_self, Option.map_some, Option.some.injEq] at hev
      exact hne (halone hev th x hb0)
    · rw [Function.update_of_ne hba] at hev
      exact h.alone th x b hb0 hne hev

theorem setEv (h : Interest w) {f : Option Addr} (hw : Owner w f) {r : AsThreadRes}
    (hr : w.ress a = some r) (hf : r.freef = true)
    (halone : ∀ th x, WaitsWith w th x a → a = x.1) :
    Interest (w.setRes a { r with status := .ev }) := by
  obtain ⟨ev, hep, -⟩ := h.watched a r hr hf
  have hsame : w.watch r.d ev a = w := by
    simp only [MwWorker.watch, ← hep, Function.update_eq_self]
  have hre : Interest ((w.watch r.d ev a).setRes a { r with status := .ev }) :=
    h.rewatch hw hr hf (by simp) fun _ => halone
  rwa [hsame] at hre

/-- A descriptor that has just been opened is not watched yet. -/
theorem openFd (h : Interest w) {fd : Int} (hfd : w.fds fd = none) (n m : Nat) :
    Interest { w with fds := Function.update w.fds fd (some n), next := m } := by
  refine ⟨fun fd' hnone => h.closed fd' ?_, h.watched, h.alone⟩
  dsimp only at hnone
  by_cases hne : fd' = fd
  · subst hne
    exact hfd
  · rwa [Function.update_of_ne hne] at hnone

/-- A new resource is linked and added to `epoll`, for no events. -/
theorem linkNew (h : Interest w) {fd : Int} (hopen : (w.fds fd).isSome) (hnone : w.epoll fd = none)
    (n : Nat) : Meets (asthreadResEvInit (linkNew w th a fd n) a) Interest AnyFault := by
  have hself : (Artorias.linkNew w th a fd n).ress a = some ⟨true, .idle, some th, fd, n⟩ :=
    Function.update_self ..
  simp only [asthreadResEvInit, MwWorker.res_eq hself, wbind_ok]
  rw [if_pos (show (Artorias.linkNew w th a fd n).CanAdd fd from ⟨hopen, hnone⟩)]
  have hother : ∀ b, b ≠ a → Function.update (Artorias.linkNew w th a fd n).ress a
      (some ⟨true, .idle, some th, fd, n⟩) b = w.ress b := by
    intro b hb
    rw [Function.update_of_ne hb]
    exact Function.update_of_ne hb ..
  refine ⟨?_, ?_, ?_⟩
  · intro fd' hfd'
    have hne : fd' ≠ fd := by
      rintro rfl
      have hclosed : w.fds fd' = none := hfd'
      rw [hclosed] at hopen
      cases hopen
    exact (Function.update_of_ne hne ..).trans (h.closed fd' hfd')
  · intro b r hr hf
    simp only [MwWorker.setRes, MwWorker.watch] at hr ⊢
    by_cases hb : b = a
    · subst hb
      rw [Function.update_self] at hr
      cases hr
      exact ⟨0, Function.update_self .., fun _ => rfl⟩
    · rw [hother b hb] at hr
      obtain ⟨ev, hep, hidle⟩ := h.watched b r hr hf
      have hne : r.d ≠ fd := by
        rintro rfl
        rw [hnone] at hep
        cases hep
      exact ⟨ev, (Function.update_of_ne hne ..).trans hep, hidle⟩
  · intro y x b hb hne hev
    simp only [MwWorker.setRes, MwWorker.watch] at hev
    by_cases hba : b = a
    · subst hba
      rw [Function.update_self] at hev
      cases hev
    · rw [hother b hba] at hev
      refine h.alone y x b ?_ hne hev
      obtain ⟨hlive, hsimple, hwait, hmem⟩ := hb
      have hmem' : b ∈ ((Artorias.linkNew w th a fd n).tm.threads y).resl := hmem
      have hsimple' : ((Artorias.linkNew w th a fd n).tm.threads y).mode = .simple := hsimple
      rw [linkNew_threads] at hmem' hsimple'
      refine ⟨hlive, ?_, hwait, ?_⟩
      · split at hsimple'
        · exact (congrArg (fun z => (w.tm.threads z).mode) ‹y = th›).trans hsimple'
        · exact hsimple'
      · split at hmem'
        · subst y
          exact (List.mem_cons.mp hmem').resolve_left hba
        · exact hmem'

end Interest

/-! ## What sets the status -/

/-- `w'` differs from `w` at most in what its resources are watched for, and
that agrees as it did. -/
structure Tends (w w' : MwWorker) : Prop where
  owners : SameOwners w w'
  log : ∀ e ∈ w.log, e ∈ w'.log
  waits : w'.waits = w.waits
  interest : Interest w → Interest w'

theorem Tends.refl (w : MwWorker) : Tends w w := ⟨.refl w, fun _ h => h, rfl, id⟩

theorem Tends.trans {w w' w'' : MwWorker} (h : Tends w w') (h' : Tends w' w'') : Tends w w'' :=
  ⟨h.owners.trans h'.owners, fun e he => h'.log e (h.log e he), h'.waits.trans h.waits,
    fun hi => h'.interest (h.interest hi)⟩

section

variable {w : MwWorker} {a th : Addr}

theorem Links.open (h : Links w w.reslOf) (hlive : (w.number th).isSome) (ha : a ∈ w.reslOf th) :
    ∃ r, w.ress a = some r ∧ r.freef = true ∧ r.th = some th := by
  obtain ⟨r, hr, hth⟩ := h.linked th a hlive ha
  refine ⟨r, hr, ?_, hth⟩
  rw [h.freef a r hr, hth]
  rfl

/-- Only the thread that a resource is linked in waits for something with it, so of two
threads one does not. -/
theorem WaitsWith.thread (hw : Links w w.reslOf) {r : AsThreadRes} (hr : w.ress a = some r)
    (hth : r.th = some th) {y : Addr} {x : Addr × Kont} (h : WaitsWith w y x a) : y = th := by
  obtain ⟨hlive, -, -, hmem⟩ := h
  obtain ⟨r', hr', hth'⟩ := hw.linked y a hlive hmem
  rw [hr, Option.some.injEq] at hr'
  subst hr'
  rw [hth, Option.some.injEq] at hth'
  exact hth'.symm

theorem asthreadResEvAdd_tends (hw : Owner w none) {r : AsThreadRes} (hr : w.ress a = some r)
    (hf : r.freef = true) (halone : ∀ y x, WaitsWith w y x a → a = x.1) (ev : BitVec 32) :
    Meets (asthreadResEvAdd w a ev) (Tends w) AnyFault := by
  have hsome : (w.ress a).isSome := by
    rw [hr]
    rfl
  refine ((asthreadResEvAdd_owners hsome ev).and ?_ (F := AnyFault)
    (R := fun w' => SameOwners w w' → Tends w w')).imp fun w' h' => h'.2 h'.1
  simp only [asthreadResEvAdd, MwWorker.res_eq hr, wbind_ok]
  split
  · exact fun hs =>
      ⟨hs, fun _ he => he, rfl, fun hi => hi.rewatch hw hr hf (by simp) fun _ => halone⟩
  · exact fun _ => .refl w

theorem asthreadResEvDel_tends (hw : Owner w none) {r : AsThreadRes} (hr : w.ress a = some r)
    (hf : r.freef = true) : Meets (asthreadResEvDel w a) (Tends w) AnyFault := by
  have hsome : (w.ress a).isSome := by
    rw [hr]
    rfl
  refine ((asthreadResEvDel_owners hsome).and ?_ (F := AnyFault)
    (R := fun w' => SameOwners w w' → Tends w w')).imp fun w' h' => h'.2 h'.1
  simp only [asthreadResEvDel, MwWorker.res_eq hr, wbind_ok]
  split
  · exact fun _ => .refl w
  · split
    · exact fun hs =>
        ⟨hs, fun _ he => he, rfl, fun hi => hi.rewatch hw hr hf (fun _ => rfl) (by simp)⟩
    · exact fun _ => .refl w

theorem asthreadRemoveResFromEpfd_tends (hw : Owner w none) (hlive : (w.number th).isSome) :
    Meets (asthreadRemoveResFromEpfd w th) (Tends w) AnyFault := by
  simp only [asthreadRemoveResFromEpfd, MwWorker.thread_eq hlive, wbind_ok]
  refine Meets.imp (Meets.foldlM (I := fun l w' => (∀ b ∈ l, b ∈ w.reslOf th) ∧ Tends w w')
    (fun b l w1 h1 => ?_) ⟨fun _ hb => hb, .refl w⟩) fun _ h => h.2
  obtain ⟨hl, h1⟩ := h1
  obtain ⟨r, hr, hf, -⟩ := hw.1.open hlive (hl b (.head _))
  obtain ⟨r1, hr1, hf1, -⟩ := h1.owners.res hr
  refine (asthreadResEvDel_tends (h1.owners.owner hw) hr1 (hf1.trans hf)).imp fun w2 h2 => ?_
  exact ⟨fun c hc => hl c (.tail _ hc), h1.trans h2⟩

theorem thRemoveResFromEpfd_tends (hw : Owner w none) (hlive : (w.number th).isSome) :
    Meets (thRemoveResFromEpfd w th) (Tends w) AnyFault := by
  simp only [thRemoveResFromEpfd, MwWorker.thread_eq hlive, wbind_ok]
  split
  · exact asthreadRemoveResFromEpfd_tends hw hlive
  · exact .refl w

/-- `ev_begin` arms the sockets of the thread that calls it, which does not
wait meanwhile. -/
theorem evBeginLoop_tends (socks : List (Addr × BitVec 32)) :
    ∀ w, Owner w none → w.waits th = none → Meets (evBeginLoop th socks w) (Tends w) AnyFault := by
  induction socks with
  | nil => exact fun w _ _ => .refl w
  | cons s socks ih =>
      intro w hw hwaits
      obtain ⟨u, ev⟩ := s
      unfold evBeginLoop
      split
      · exact trivial
      · split
        · exact .refl w
        · split
          · exact trivial
          · rename_i b _ _ r hr
            split
            · exact .refl w
            · rename_i hth
              rw [not_not] at hth
              have hf : r.freef = true := by
                rw [hw.1.freef b r hr, hth]
                rfl
              have halone : ∀ y x, WaitsWith w y x b → b = x.1 := by
                intro y x hb
                obtain rfl := hb.thread hw.1 hr hth
                obtain ⟨-, -, hwait, -⟩ := hb
                rw [hwaits] at hwait
                cases hwait
              have hset : Tends w (w.setRes b { r with status := .ev }) :=
                ⟨.of_setRes hr rfl, fun _ he => he, rfl, fun hi => hi.setEv hw hr hf halone⟩
              have hself :
                  (w.setRes b { r with status := .ev }).ress b = some { r with status := .ev } :=
                Function.update_self ..
              refine (asthreadResEvAdd_tends (hset.owners.owner hw) hself hf halone ev).bind
                fun w2 h2 => ?_
              have h12 := hset.trans h2
              refine (ih w2 (h12.owners.owner hw) ?_).imp fun w3 h3 => h12.trans h3
              rw [h12.waits]
              exact hwaits

end

/-! ## Making threads and sockets -/

section

variable {w : MwWorker} {th u : Addr}

theorem Meets.of_imp {α : Type} {x : WRun α} {P : Prop} {Q : α → Prop}
    (h : P → Meets x Q AnyFault) : Meets x (fun a => P → Q a) AnyFault := by
  cases x with
  | ok a => exact h
  | error e => exact trivial

theorem asthreadResEvInit_keeps (w : MwWorker) (a : Addr) :
    Meets (asthreadResEvInit w a) (fun w' => w'.log = w.log ∧ w'.waits = w.waits) AnyFault := by
  refine (res_any w a).bind fun r _ => ?_
  split
  · exact ⟨rfl, rfl⟩
  · exact ⟨rfl, rfl⟩

theorem lcfSocketNew_interest (hlive : (w.number th).isSome) (res : Addr) (fd : Int) :
    Meets (lcfSocketNew w th u (some res) (some fd)) (fun w' => (∀ e ∈ w.log, e ∈ w'.log)
      ∧ w'.waits = w.waits ∧ (Interest w → Interest w')) AnyFault := by
  unfold lcfSocketNew
  split
  · exact trivial
  · dsimp only
    split
    · exact trivial
    · unfold MwWorker.openFd
      split
      · exact trivial
      · rename_i hopen
        have hfd : w.fds fd = none := Option.not_isSome_iff_eq_none.mp hopen
        let w1 : MwWorker :=
          { w with fds := Function.update w.fds fd (some w.next), next := w.next + 1 }
        let w1s : MwWorker := w1.setSock u (some ⟨some res, .custom, w.next⟩)
        have hsome : (w1s.fds fd).isSome := by
          rw [show w1s.fds fd = some w.next from Function.update_self ..]
          rfl
        have hinit : Meets (asthreadResEvInit (linkNew w1s th res fd w.next) res) (fun w' =>
            (w'.log = w.log ∧ w'.waits = w.waits) ∧ (Interest w → Interest w')) AnyFault := by
          refine (asthreadResEvInit_keeps _ _).and (Meets.of_imp fun hi => ?_)
          obtain ⟨hclosed, hwatched, halone⟩ := hi.openFd hfd w.next (w.next + 1)
          have hi1 : Interest w1s := ⟨hclosed, hwatched, halone⟩
          exact hi1.linkNew hsome (hi.closed fd hfd) w.next
        refine linkNew_bind (w := w1s) hlive hinit fun w2 h2 => ?_
        obtain ⟨⟨hlog, hwaits⟩, hi2⟩ := h2
        refine ⟨?_, hwaits, ?_⟩
        · intro e he
          rw [MwWorker.note, hlog]
          exact List.mem_append_left _ he
        · intro hi
          obtain ⟨hclosed, hwatched, halone⟩ := hi2 hi
          exact ⟨hclosed, hwatched, halone⟩

theorem WaitsWith.of_startThread {t : AsThread} {lthread : Bool} {n : Nat} {y : Addr}
    {x : Addr × Kont} {b : Addr}
    (h : WaitsWith (w.startThread th t lthread n) y x b) (hy : y ≠ th) :
    WaitsWith w y x b := by
  obtain ⟨hlive, hsimple, hwait, hmem⟩ := h
  have hnum : (w.startThread th t lthread n).number y = w.number y := Function.update_of_ne hy ..
  have hthread : (w.startThread th t lthread n).tm.threads y = w.tm.threads y :=
    ThreadMem.setThread_of_ne _ _ hy
  rw [hnum] at hlive
  rw [hthread] at hsimple hmem
  exact ⟨hlive, hsimple, hwait, hmem⟩

/-- A thread is made, or not, and sockets are collected meanwhile; the interest sets stay
right, as the new resource is registered for no events. -/
theorem newThread_interest (hw : Owner w none) (lua : Lua) (c : Conn) :
    Meets (newThread lua w c) (fun p => Owner p.1 none ∧ (∀ e ∈ w.log, e ∈ p.1.log)
      ∧ (Interest w → Interest p.1)) AnyFault := by
  refine Meets.imp ((newThread_accepts hw lua c trivial trivial).and (F := AnyFault)
    (R := fun p => (∀ e ∈ w.log, e ∈ p.1.log)
      ∧ (Interest w → Owner p.1 none → Interest p.1)) ?_)
    fun p hp => ⟨hp.1.owner, hp.2.1, fun hi => hp.2.2 hi hp.1.owner⟩
  let w1 : MwWorker := { w with
    fds := Function.update w.fds c.fd (some w.next), next := w.next + 1 }
  have hcollect : w.fds c.fd = none → Meets (luaCollect lua w1) (fun w2 =>
      Collected w1 none w2 ∧ Shuts w1 w2 ∧ w.fds c.fd = none) AnyFault := by
    intro hfd
    have hw1 : Owner w1 none := (SameOwners.openFd hfd).owner hw
    exact ((luaCollect_owner hw1 lua trivial).and (luaCollect_shuts lua w1)).imp
      fun w2 h => ⟨h.1, h.2, hfd⟩
  have hopened : ∀ w2, w.fds c.fd = none → Shuts w1 w2 → Owner w2 none → Interest w → Interest w2 :=
    fun w2 hfd hs2 howner2 hi => (hi.openFd hfd w.next (w.next + 1)).shuts hs2 howner2.2.opened
  refine newThread_bind trivial trivial hcollect ?_ ?_ ?_
  · rintro w2 ⟨⟨howner2, -⟩, hs2, hfd⟩ - -
    exact ⟨hs2.log, fun hi _ => hopened w2 hfd hs2 howner2 hi⟩
  · rintro th t w2 - ⟨⟨howner2, -⟩, hs2, hfd⟩ -
    refine ⟨fun e he => List.mem_append_left _ (hs2.log e he), ?_⟩
    intro hi howner
    refine (hopened w2 hfd hs2 howner2 hi).shuts (Shuts.trans ?_ (.note _ _)) howner.2.opened
    refine { Shuts.refl w2 with wait := ?_ }
    intro y x b hb
    obtain ⟨hlive, hrest⟩ := hb
    by_cases hy : y = th
    · subst hy
      simp only [Function.update_self] at hlive
      cases hlive
    · have hstarted : WaitsWith (w2.startThread th t c.lthread w.next) y x b := by
        refine ⟨?_, hrest⟩
        simp only [Function.update_of_ne hy] at hlive
        simpa [MwWorker.startThread, Function.update_of_ne hy] using hlive
      exact hstarted.of_startThread hy
  · rintro th t w2 res hnum ⟨⟨howner2, hc⟩, hs2, hfd⟩ - - hresl -
    let w4 : MwWorker := w2.startThread th t c.lthread w.next
    have hfd4 : w4.fds c.fd = some w.next :=
      hc.fds _ _ (hw.unused_next c.fd) (Function.update_self ..)
    have hep4 : Interest w → w4.epoll c.fd = none := by
      intro hi
      rcases hs2.fds c.fd with ⟨-, hep⟩ | ⟨-, hep⟩
      · exact hep.trans (hi.closed c.fd hfd)
      · exact hep
    have hi4 : Interest w → Interest w4 := by
      intro hi
      refine (hopened w2 hfd hs2 howner2 hi).shuts { Shuts.refl w2 with wait := ?_ }
        howner2.2.opened
      intro y x b hb
      by_cases hy : y = th
      · subst hy
        have hself : w4.tm.threads y = t := ThreadMem.setThread_self ..
        obtain ⟨-, -, -, hmem⟩ := hb
        rw [hself, hresl] at hmem
        cases hmem
      · exact hb.of_startThread hy
    have hlive4 : (w4.number th).isSome := by
      rw [MwWorker.startThread_number]
      rfl
    have hlink : Meets (asthreadResEvInit (linkNew w4 th res c.fd w.next) res) (fun w' =>
        (w'.log = w2.log ∧ w'.waits = w2.waits) ∧ (Interest w → Interest w')) AnyFault :=
      (asthreadResEvInit_keeps _ _).and (Meets.of_imp fun hi =>
        (hi4 hi).linkNew (by rw [hfd4]; rfl) (hep4 hi) w.next)
    refine linkNew_bind (w := w4) hlive4 hlink fun w5 h5 => ?_
    obtain ⟨⟨hlog5, -⟩, hi5⟩ := h5
    refine (thread_any w5 th).bind fun t5 ht5 => ?_
    subst ht5
    constructor
    · intro e he
      change e ∈ w5.log ++ _
      rw [hlog5]
      exact List.mem_append_left _ (hs2.log e he)
    · intro hi howner
      refine (hi5 hi).shuts (Shuts.trans (.setThread ?_) (.note _ _)) howner.2.opened
      exact fun x b _ hsimple hb => ⟨hsimple, hb⟩

end

end Artorias
