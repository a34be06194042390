import Artorias.ResLife

/-!
# Functions that make sockets and threads
-/

namespace Artorias

section

variable {w : MwWorker} {th u : Addr} {E : WFault → Prop}

/-- Up to its status, what a new resource is like when it has been linked in
`th`. -/
def linkNew (w : MwWorker) (th res : Addr) (fd : Int) (n : Nat) : MwWorker :=
  (w.setRes res ⟨true, .idle, some th, fd, n⟩).setThread th
    { w.tm.threads th with resl := res :: w.reslOf th }

/-- The rule for the three calls that set up a new resource, `asthread_res_init`,
`asthread_res_add_to_th` and `asthread_res_ev_init`: it asks for what follows them with the
resource linked in `th`. -/
theorem linkNew_bind {α : Type} (hlive : (w.number th).isSome) {res : Addr} {fd : Int} {n : Nat}
    {P : MwWorker → Prop} (h : Meets (asthreadResEvInit (linkNew w th res fd n) res) P E)
    {f : MwWorker → WRun α} {Q : α → Prop} (hf : ∀ w', P w' → Meets (f w') Q E) :
    Meets (do
      let w ← asthreadResInit (w.setRes res ⟨false, .idle, none, fd, n⟩) res
      let w ← asthreadResAddToTh w res th
      let w ← asthreadResEvInit w res
      f w) Q E := by
  have hset : ∀ (w : MwWorker) r, (w.setRes res r).ress res = some r := fun w r =>
    Function.update_self ..
  have hset2 : ∀ (w : MwWorker) r r', (w.setRes res r).setRes res r' = w.setRes res r' := by
    intro w r r'
    simp only [MwWorker.setRes, Function.update_idem]
  have hinit : asthreadResInit (w.setRes res ⟨false, .idle, none, fd, n⟩) res
      = .ok (w.setRes res ⟨true, .idle, none, fd, n⟩) := by
    simp only [asthreadResInit, MwWorker.res_eq (hset _ _), wbind_ok, hset2]
  have hadd : asthreadResAddToTh (w.setRes res ⟨true, .idle, none, fd, n⟩) res th
      = .ok (linkNew w th res fd n) := by
    simp only [asthreadResAddToTh, MwWorker.res_eq (hset _ _), wbind_ok, hset2]
    rw [MwWorker.thread_eq (show ((w.setRes res _).number th).isSome from hlive)]
    rfl
  rw [hinit, wbind_ok, hadd, wbind_ok]
  exact h.bind hf

theorem linkNew_owners (w : MwWorker) (th res : Addr) (fd : Int) (n : Nat) :
    Meets (asthreadResEvInit (linkNew w th res fd n) res)
      (SameOwners (linkNew w th res fd n)) E := by
  refine asthreadResEvInit_owners ?_
  have hself : (linkNew w th res fd n).ress res = some ⟨true, .idle, some th, fd, n⟩ :=
    Function.update_self ..
  rw [hself]
  rfl

theorem linkNew_threads (w : MwWorker) (th res : Addr) (fd : Int) (n : Nat) (x : Addr) :
    (linkNew w th res fd n).tm.threads x
      = if x = th then { w.tm.threads th with resl := res :: w.reslOf th } else w.tm.threads x := by
  split
  · subst x
    exact ThreadMem.setThread_self ..
  · exact ThreadMem.setThread_of_ne _ _ ‹_›

/-- A resource has been made, with the number that was next. -/
def Makes (w : MwWorker) (o : Holder) (th a : Addr) (w' : MwWorker) : Prop :=
  ∃ w1 w2, SameOwners w w1 ∧ Creates w1 w2 o th a w.next ∧ SameOwners w2 w'

theorem LinkedAt.unused_next {links : Addr → List Addr} (h : LinkedAt w links)
    (hlog : ∀ e ∈ w.log, ∀ n, e.number = some n → n < w.next) (fd : Int) :
    Unused { w with fds := Function.update w.fds fd (some w.next), next := w.next + 1 } w.next :=
  ⟨h.next, Nat.lt_succ_self _, fun a r hr => Nat.ne_of_lt (h.old a r hr).2,
    fun e he hn => Nat.lt_irrefl _ (hlog e he _ hn)⟩

theorem Owner.unused_next (h : Owner w none) (fd : Int) :
    Unused { w with fds := Function.update w.fds fd (some w.next), next := w.next + 1 } w.next :=
  h.1.linkedAt.unused_next h.2.old fd

theorem SameOwners.openFd {fd : Int} (hfd : w.fds fd = none) :
    SameOwners w { w with fds := Function.update w.fds fd (some w.next), next := w.next + 1 } := by
  refine { SameOwners.refl w with fds := fun fd' n _ he => ?_, next := Nat.le_succ _ }
  dsimp only
  rw [Function.update_of_ne, he]
  rintro rfl
  rw [hfd] at he
  cases he

theorem lcfSocketNew_creates {res : Addr} {fd : Int}
    (hunused : Unused
      { w with fds := Function.update w.fds fd (some w.next), next := w.next + 1 } w.next)
    (hlive : (w.number th).isSome) (henv : E .env) :
    Meets (lcfSocketNew w th u (some res) (some fd))
      (fun w' => w.ress res = none ∧ Makes w (.userdata u) th res w') E := by
  unfold lcfSocketNew
  split
  · exact henv
  · rename_i hsock
    have hnone : w.socks u = none := Option.not_isSome_iff_eq_none.mp hsock
    dsimp only
    split
    · exact henv
    · rename_i hfree
      have hres : w.ress res = none := by
        refine Option.not_isSome_iff_eq_none.mp fun hs => hfree (.inr (.inl hs))
      unfold MwWorker.openFd
      split
      · exact henv
      · rename_i hopen
        have hfd : w.fds fd = none := Option.not_isSome_iff_eq_none.mp hopen
        rw [wbind_ok]
        let w1 : MwWorker :=
          { w with fds := Function.update w.fds fd (some w.next), next := w.next + 1 }
        let w1s : MwWorker := w1.setSock u (some ⟨some res, .custom, w.next⟩)
        refine linkNew_bind (w := w1s) hlive (linkNew_owners w1s th res fd w.next) fun w' hw' =>
          ⟨hres, w1,
          (linkNew w1s th res fd w.next).note (.socketNew w.next), .openFd hfd, ?_, hw'.note _⟩
        have hthread := linkNew_threads w1s th res fd w.next
        refine ⟨hunused, hres, ⟨_, rfl, rfl, rfl, rfl, Function.update_self ..⟩, rfl, rfl,
          rfl, nofun, ?_, ?_, hlive, ?_, w.reslOf th, ?_, ?_⟩
        · intro x m
          exact (or_iff_left fun ho => nomatch ho.1).symm
        · intro o b m
          cases o with
          | thread x =>
              refine Iff.trans ?_ (or_iff_left fun ho => nomatch ho.1).symm
              refine and_congr_right fun _ => ?_
              change ((linkNew w1s th res fd w.next).tm.threads x).mfdRes = _ ↔ _
              rw [hthread]
              split
              · subst x
                exact .rfl
              · exact .rfl
          | userdata v =>
              change Function.update w.socks u (some ⟨some res, .custom, w.next⟩) v = _
                ↔ w.socks v = _ ∨ _
              by_cases hv : v = u
              · subst hv
                rw [Function.update_self, hnone]
                simp [eq_comm]
              · rw [Function.update_of_ne hv]
                simp [hv]
        · intro x hx
          change ((linkNew w1s th res fd w.next).tm.threads x).resl = _
          rw [hthread, if_neg hx]
          rfl
        · change ((linkNew w1s th res fd w.next).tm.threads th).resl = _
          rw [hthread, if_pos rfl]
          rfl
        · rw [if_pos (show (w1.number th).isSome from hlive)]
          rfl

theorem lcfSocketNew_makes (h : Owner w none) (hlive : (w.number th).isSome) {res : Addr} {fd : Int}
    (henv : E .env) :
    Meets (lcfSocketNew w th u (some res) (some fd))
      (fun w' => w.ress res = none ∧ Makes w (.userdata u) th res w') E :=
  lcfSocketNew_creates (h.unused_next fd) hlive henv

/-- A thread whose number has been given to it alone is not made after all, and nobody owns
anything under that number. -/
theorem Owner.note_threadRecycle (h : Owner w none) {n : Nat} (hn : Unused w n) :
    Owner (w.note (.threadRecycle n)) none := by
  have hcount : ∀ e, e ≠ .threadRecycle n →
      (w.note (.threadRecycle n)).log.count e = w.log.count e := by
    intro e he
    simp [MwWorker.note, List.count_append, he.symm]
  have hmem : ∀ e, e ∈ (w.note (.threadRecycle n)).log → e ∈ w.log ∨ e = .threadRecycle n := by
    intro e he
    simpa [MwWorker.note] using he
  have hne : ∀ m, WorkerEvent.threadInit m ∈ w.log → m ≠ n := by
    rintro m hm rfl
    exact hn.log _ hm rfl
  refine ⟨{ h.1 with }, h.2.opened, ?_, ?_, ?_, ?_, ?_⟩
  · intro a r hr
    rw [hcount (.resRecycle r.number) nofun, hcount (.fdClose r.number) nofun]
    exact h.2.res a r hr
  · intro x m hm
    obtain ⟨a, r, -, hr, rfl⟩ := thread_has h.1 hm
    rw [hcount (.threadFree _) nofun, hcount (.threadRecycle _) (by simpa using hn.res a r hr)]
    exact h.2.thread x _ hm
  · intro m hm
    have hm := (hmem _ hm).resolve_right nofun
    rw [hcount (.threadFree m) nofun, hcount (.threadRecycle m) (by simpa using hne m hm),
      hcount (.resRecycle m) nofun, hcount (.fdClose m) nofun]
    exact h.2.threads m hm
  · intro m hm
    have hm := (hmem _ hm).resolve_right nofun
    rw [hcount (.resRecycle m) nofun, hcount (.fdClose m) nofun]
    exact h.2.sockets m hm
  · intro e he m hm
    rcases hmem e he with he | rfl
    · exact h.2.old e he m hm
    · cases hm
      exact hn.old

/-- The thread of a new connection with its resource, up to the status of the
resource. -/
def holdMfd (w : MwWorker) (th res : Addr) (fd : Int) (n : Nat) : MwWorker :=
  ((linkNew w th res fd n).setThread th
    { (linkNew w th res fd n).tm.threads th with mfdRes := some res }).note (.threadInit n)

theorem newMfdRes_owners (hlive : (w.number th).isSome) (res : Addr) (fd : Int) (n : Nat) :
    Meets (newMfdRes w th res fd n) (SameOwners (holdMfd w th res fd n)) E := by
  refine linkNew_bind hlive (linkNew_owners w th res fd n) fun w' hw' => ?_
  have hlive' : (w'.number th).isSome := by
    rw [hw'.number]
    exact hlive
  rw [MwWorker.thread_eq hlive', wbind_ok]
  have hset : SameOwners
      ((linkNew w th res fd n).setThread th
        { (linkNew w th res fd n).tm.threads th with mfdRes := some res })
      (w'.setThread th { w'.tm.threads th with mfdRes := some res }) :=
    hw'.setThread rfl (hw'.threads th hlive).2
  exact hset.note (.threadInit n)

theorem holdMfd_threads (w : MwWorker) (th res : Addr) (fd : Int) (n : Nat) (x : Addr) :
    (holdMfd w th res fd n).tm.threads x
      = if x = th then { w.tm.threads th with resl := res :: w.reslOf th, mfdRes := some res }
        else w.tm.threads x := by
  split
  · subst x
    refine (ThreadMem.setThread_self ..).trans ?_
    rw [linkNew_threads, if_pos rfl]
  · refine (ThreadMem.setThread_of_ne _ _ ‹_›).trans ?_
    rw [linkNew_threads, if_neg ‹_›]

theorem startThread_creates {t : AsThread} (lthread : Bool) {res : Addr} {fd : Int} {n : Nat}
    (hnum : w.number th = none) (hfree : w.ress res = none) (hunused : Unused w n)
    (hfd : w.fds fd = some n) (hresl : t.resl = []) :
    Creates w (holdMfd (w.startThread th t lthread n) th res fd n) (.thread th) th res n := by
  let w1 := w.startThread th t lthread n
  have hself : w1.tm.threads th = t := ThreadMem.setThread_self ..
  have hnumber : ∀ x, (holdMfd w1 th res fd n).number x
      = if x = th then some n else w.number x := by
    intro x
    change Function.update w.number th (some n) x = _
    rw [Function.update_apply]
  have hthread : ∀ x, (holdMfd w1 th res fd n).tm.threads x
      = if x = th then { t with resl := [res], mfdRes := some res } else w.tm.threads x := by
    intro x
    rw [holdMfd_threads, MwWorker.reslOf, hself, hresl]
    split
    · rfl
    · exact ThreadMem.setThread_of_ne _ _ ‹_›
  refine ⟨hunused, hfree, ⟨⟨true, .idle, some th, fd, n⟩, rfl, rfl, rfl, rfl, hfd⟩, rfl, rfl, rfl,
    ?_, ?_, ?_, ?_, ?_, [], ?_, ?_⟩
  · intro x hx
    cases hx
    rfl
  · intro x m
    rw [hnumber]
    by_cases hx : x = th
    · subst hx
      simp [hnum, eq_comm]
    · simp [hx, Ne.symm hx]
  · intro o b m
    cases o with
    | thread x =>
        rw [Has, Has, hnumber, hthread]
        by_cases hx : x = th
        · subst hx
          simp [hnum, eq_comm, and_comm]
        · simp [hx]
    | userdata v =>
        refine (or_iff_left ?_).symm
        rintro ⟨ho, -⟩
        cases ho
  · rw [hnumber, if_pos rfl]
    rfl
  · intro x hx
    rw [MwWorker.reslOf, hthread, if_neg hx]
    rfl
  · rw [MwWorker.reslOf, hthread, if_pos rfl]
  · rw [hnum]
    rfl

/-- What `handle_accept` leaves up to `thread_resume`: sockets have been
collected, and a thread has been made with the number that was next, or none. -/
structure Accepts (w : MwWorker) (p : MwWorker × Option Addr) : Prop where
  owner : Owner p.1 none
  made : ∃ w1 w2, SameOwners w w1 ∧ Collects w1 w2 ∧ Owner w2 none
    ∧ (p.2 = none ∧ p.1 = w2
      ∨ p.2 = none ∧ (∃ w3, SameOwners w2 w3 ∧ p.1 = w3.note (.threadRecycle w.next))
      ∨ ∃ th res w3, p.2 = some th ∧ w2.number th = none
        ∧ Creates w2 w3 (.thread th) th res w.next ∧ SameOwners w3 p.1)

theorem newThread_accepts (h : Owner w none) (lua : Lua) (c : Conn) (henv : E .env)
    (hnull : E .null) : Meets (newThread lua w c) (Accepts w) E := by
  let w1 : MwWorker := { w with
    fds := Function.update w.fds c.fd (some w.next), next := w.next + 1 }
  have hunused1 : Unused w1 w.next := h.unused_next c.fd
  have hcollect : w.fds c.fd = none →
      Meets (luaCollect lua w1) (fun w2 => SameOwners w w1 ∧ Collected w1 none w2) E := by
    intro hfd
    have h1 : SameOwners w w1 := .openFd hfd
    exact (luaCollect_owner (h1.owner h) lua henv).imp fun w2 hw2 => ⟨h1, hw2⟩
  refine newThread_bind henv hnull hcollect ?_ ?_ ?_
  · rintro w2 ⟨h1, howner2, hc⟩ - -
    exact ⟨howner2, w1, w2, h1, hc, howner2, .inl ⟨rfl, rfl⟩⟩
  · rintro th t w2 hnum ⟨h1, howner2, hc⟩ -
    have hnum2 : w2.number th = none := (congrFun hc.number th).trans hnum
    have hback : Function.update w2.number th none = w2.number := by
      rw [← hnum2, Function.update_eq_self]
    have hset : SameOwners w2 (w2.setThread th t) :=
      .of_setThread fun hn => by rw [hnum2] at hn; cases hn
    rw [hback]
    let w3 : MwWorker := { w2.startThread th t c.lthread w.next with number := w2.number }
    have h3 : SameOwners w2 w3 := { hset with }
    have hunused2 := hc.unused _ hunused1
    have hunused3 : Unused w3 w.next := by
      refine ⟨hunused2.pos, Nat.lt_of_lt_of_le hunused2.old h3.next, ?_, hunused2.log⟩
      intro a r hr
      obtain ⟨r0, hr0, -, -, -, hn0⟩ := h3.res_of hr
      rw [hn0]
      exact hunused2.res a r0 hr0
    exact ⟨(h3.owner howner2).note_threadRecycle hunused3,
      w1, w2, h1, hc, howner2, .inr (.inl ⟨rfl, w3, h3, rfl⟩)⟩
  · rintro th t w2 res hnum ⟨h1, howner2, hc⟩ - - hresl hfree
    have hnum2 : w2.number th = none := (congrFun hc.number th).trans hnum
    have hfd2 : w2.fds c.fd = some w.next := hc.fds _ _ hunused1 (Function.update_self ..)
    have hcreates := startThread_creates c.lthread hnum2 hfree (hc.unused _ hunused1) hfd2 hresl
    refine (newMfdRes_owners ?_ res c.fd w.next).imp fun w' h' =>
      ⟨h'.owner (hcreates.owner howner2),
        w1, w2, h1, hc, howner2, .inr (.inr ⟨th, res, _, rfl, hnum2, hcreates, h'⟩)⟩
    rw [MwWorker.startThread_number]
    rfl

end

end Artorias
