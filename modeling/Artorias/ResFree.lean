import Artorias.ResMake

/-!
# A thread is freed

Its resources are closed one by one, and stay in its list (`Frees`); then its
first resource is recycled, and its own block (`releaseThread_owner`).
-/

namespace Artorias

/-- `w'` is left when the resource `a` of a thread that is freed has been closed: it is no
thread's any more, its descriptor is closed, and that is all. -/
structure Frees (w w' : MwWorker) (a : Addr) (r : AsThreadRes) : Prop where
  tm : w'.tm = w.tm
  number : w'.number = w.number
  socks : w'.socks = w.socks
  next : w'.next = w.next
  ress : w'.ress = Function.update w.ress a (some { r with th := none, freef := false })
  fds : w'.fds = Function.update w.fds r.d none
  log : w'.log = w.log ++ [.fdClose r.number]

theorem freeRes_frees {w : MwWorker} {a : Addr} {r : AsThreadRes} (hr : w.ress a = some r)
    (hf : r.freef = true) (hfd : w.fds r.d = some r.number) :
    ∃ w', freeRes w a = .ok w' ∧ Frees w w' a r := by
  let w1 : MwWorker := w.setRes a { r with th := none }
  have hclose : resFreeF w1 r = { w1 with fds := Function.update w1.fds r.d none,
                                          epoll := Function.update w1.epoll r.d none }.note
      (.fdClose r.number) := by
    have hfd1 : w1.fds r.d = some r.number := hfd
    simp only [resFreeF, MwWorker.close, hfd1]
  refine ⟨(resFreeF w1 r).setRes a { r with th := none, freef := false }, ?_, ?_⟩
  · simp only [freeRes, MwWorker.res_eq hr, wbind_ok, if_pos hf]
    rfl
  · rw [hclose]
    exact ⟨rfl, rfl, rfl, rfl, Function.update_idem .., rfl, rfl⟩

namespace Frees

variable {w w' : MwWorker} {a th : Addr} {r : AsThreadRes} {lists : Addr → List Addr}
  {rest : List Addr} {freeing : Option Addr}

theorem has (h : Frees w w' a r) (o : Holder) (b : Addr) (m : Nat) : Has w' o b m
    ↔ Has w o b m := by
  cases o with
  | thread x => rw [Has, Has, h.number, h.tm]
  | userdata u => rw [Has, Has, h.socks]

theorem res_of (h : Frees w w' a r) {b : Addr} {r' : AsThreadRes} (hr' : w'.ress b = some r') :
    b = a ∧ r' = { r with th := none, freef := false } ∨ b ≠ a ∧ w.ress b = some r' := by
  rw [h.ress] at hr'
  by_cases hb : b = a
  · subst hb
    rw [Function.update_self] at hr'
    exact .inl ⟨rfl, (Option.some.inj hr').symm⟩
  · rw [Function.update_of_ne hb] at hr'
    exact .inr ⟨hb, hr'⟩

theorem res_of_ne (h : Frees w w' a r) {b : Addr} (hb : b ≠ a) : w'.ress b = w.ress b := by
  rw [h.ress, Function.update_of_ne hb]

theorem res_number (h : Frees w w' a r) (hr : w.ress a = some r) (b : Addr) :
    (w'.ress b).map AsThreadRes.number = (w.ress b).map AsThreadRes.number := by
  by_cases hb : b = a
  · subst hb
    rw [h.ress, Function.update_self, hr]
    rfl
  · rw [h.res_of_ne hb]

theorem count (h : Frees w w' a r) {e : WorkerEvent} (he : e ≠ .fdClose r.number) :
    w'.log.count e = w.log.count e := by
  simp [h.log, List.count_append, he.symm]

theorem links (h : Frees w w' a r) (hw : Links w lists) (hlive : (w.number th).isSome)
    (hl : lists th = a :: rest) (hr : w.ress a = some r) :
    Links w' (Function.update lists th rest) := by
  have hth : r.th = some th := by
    obtain ⟨r', hr', hth⟩ := hw.linked th a hlive (hl ▸ .head _)
    rw [hr, Option.some.injEq] at hr'
    exact hr' ▸ hth
  have hnodup := hw.nodup th hlive
  rw [hl, List.nodup_cons] at hnodup
  have hself : w'.ress a = some { r with th := none, freef := false } := by
    rw [h.ress, Function.update_self]
  have hnumber : ∀ b r', w'.ress b = some r' → ∃ r0, w.ress b = some r0
      ∧ r0.number = r'.number := by
    intro b r' hr'
    rcases h.res_of hr' with ⟨rfl, rfl⟩ | ⟨-, hr'⟩
    · exact ⟨r, hr, rfl⟩
    · exact ⟨r', hr', rfl⟩
  refine ⟨?_, ?_, ?_, ?_, ?_, ?_, ?_, ?_, ?_, ?_, h.next ▸ hw.next⟩
  · intro x b hx hb
    rw [h.number] at hx
    have hmem : b ∈ lists x ∧ b ≠ a := by
      by_cases hxth : x = th
      · subst hxth
        rw [Function.update_self] at hb
        exact ⟨hl ▸ .tail _ hb, fun he => hnodup.1 (he ▸ hb)⟩
      · rw [Function.update_of_ne hxth] at hb
        refine ⟨hb, ?_⟩
        rintro rfl
        obtain ⟨r', hr', hx'⟩ := hw.linked x b hx hb
        rw [hr, Option.some.injEq] at hr'
        subst hr'
        rw [hth, Option.some.injEq] at hx'
        exact hxth hx'.symm
    rw [h.res_of_ne hmem.2]
    exact hw.linked x b hx hmem.1
  · intro x hx
    rw [h.number] at hx
    by_cases hxth : x = th
    · subst hxth
      rw [Function.update_self]
      exact hnodup.2
    · rw [Function.update_of_ne hxth]
      exact hw.nodup x hx
  · intro b r' x hr' hx
    rw [h.number]
    rcases h.res_of hr' with ⟨rfl, rfl⟩ | ⟨hb, hr'⟩
    · cases hx
    · obtain ⟨hxlive, hmem⟩ := hw.owned b r' x hr' hx
      refine ⟨hxlive, ?_⟩
      by_cases hxth : x = th
      · subst hxth
        rw [hl] at hmem
        rw [Function.update_self]
        exact (List.mem_cons.mp hmem).resolve_left hb
      · rwa [Function.update_of_ne hxth]
  · intro b r' hr'
    rcases h.res_of hr' with ⟨rfl, rfl⟩ | ⟨-, hr'⟩
    · rfl
    · exact hw.freef b r' hr'
  · intro x hx
    rw [h.number] at hx
    rw [h.tm]
    exact hw.mfd x hx
  · intro x b m r' y hm hr' hy
    rcases h.res_of hr' with ⟨rfl, rfl⟩ | ⟨-, hr'⟩
    · cases hy
    · exact hw.own x b m r' y ((h.has _ b m).mp hm) hr' hy
  · intro o b m ho
    obtain ⟨r0, hr0, hn0⟩ := hw.has o b m ((h.has o b m).mp ho)
    by_cases hb : b = a
    · subst hb
      rw [hr, Option.some.injEq] at hr0
      subst hr0
      exact ⟨_, hself, hn0⟩
    · exact ⟨r0, (h.res_of_ne hb).trans hr0, hn0⟩
  · intro o1 o2 b1 b2 m h1 h2
    exact hw.sole o1 o2 b1 b2 m ((h.has o1 b1 m).mp h1) ((h.has o2 b2 m).mp h2)
  · intro b b' r1 r2 h1 h2 hn
    obtain ⟨r1', h1', hn1⟩ := hnumber b r1 h1
    obtain ⟨r2', h2', hn2⟩ := hnumber b' r2 h2
    exact hw.uniq b b' r1' r2' h1' h2' (hn1.trans (hn.trans hn2.symm))
  · intro b r' hr'
    obtain ⟨r0, hr0, hn0⟩ := hnumber b r' hr'
    rw [← hn0, h.next]
    exact hw.old b r0 hr0

theorem accounts (h : Frees w w' a r) (hl : Links w lists) (hw : Accounts w freeing)
    (hr : w.ress a = some r) (hf : r.freef = true) : Accounts w' freeing := by
  have hopen : w.fds r.d = some r.number := hw.opened a r hr hf
  obtain ⟨hrec, hclose⟩ := hw.res a r hr
  rw [if_pos hf] at hclose
  have hpos : r.number ≠ 0 := (hl.old a r hr).1
  have hkeep : ∀ m, m ≠ r.number → w'.log.count (.fdClose m) = w.log.count (.fdClose m) :=
    fun m hm => h.count (by simpa using hm)
  have hmem : ∀ e ∈ w'.log, e ∈ w.log ∨ e = .fdClose r.number := by
    intro e he
    simpa [h.log] using he
  refine ⟨?_, ?_, ?_, ?_, ?_, ?_⟩
  · intro b r' hr' hf'
    rcases h.res_of hr' with ⟨rfl, rfl⟩ | ⟨hb, hr'⟩
    · cases hf'
    · rw [h.fds, Function.update_of_ne (hw.fd_ne hl hr hopen hr' hf' hb)]
      exact hw.opened b r' hr' hf'
  · intro b r' hr'
    rw [h.count (e := .resRecycle r'.number) nofun]
    rcases h.res_of hr' with ⟨rfl, rfl⟩ | ⟨hb, hr'⟩
    · refine ⟨hrec, ?_⟩
      simp [h.log, List.count_append, hclose]
    · rw [hkeep r'.number fun hn => hb (hl.uniq b a r' r hr' hr hn)]
      exact hw.res b r' hr'
  · intro x m hm
    rw [h.number] at hm
    rw [h.count (e := .threadRecycle m) nofun, h.count (e := .threadFree m) nofun]
    exact hw.thread x m hm
  · intro m hm
    obtain ⟨hne, hcase⟩ := hw.threads m ((hmem _ hm).resolve_right nofun)
    rw [h.number, h.count (e := .threadFree m) nofun, h.count (e := .threadRecycle m) nofun,
      h.count (e := .resRecycle m) nofun]
    refine ⟨hne, hcase.imp_right fun hdone => ?_⟩
    rw [hkeep m]
    · exact hdone
    · rintro rfl
      rw [hrec] at hdone
      exact absurd hdone.2.2.1 (by decide)
  · intro m hm
    obtain ⟨hne, hcase⟩ := hw.sockets m ((hmem _ hm).resolve_right nofun)
    rw [h.count (e := .resRecycle m) nofun]
    refine ⟨hne, hcase.imp ?_ ?_⟩
    · rintro ⟨u, b, hu⟩
      exact ⟨u, b, (h.has _ b m).mpr hu⟩
    · intro hdone
      rw [hkeep m]
      · exact hdone
      · rintro rfl
        rw [hrec] at hdone
        exact absurd hdone.1 (by decide)
  · intro e he m hm
    rw [h.next]
    rcases hmem e he with he | rfl
    · exact hw.old e he m hm
    · rw [number_fdClose hpos, Option.some.injEq] at hm
      exact hm ▸ (hl.old a r hr).2

end Frees

/-! ## The loop of `asthread_th_free` -/

/-- In the middle of closing the resources of `th`: those in `rest` are still to be closed.
Threads, numbers and holders are as they were. -/
structure Freeing (w : MwWorker) (th : Addr) (rest : List Addr) (w' : MwWorker) : Prop where
  links : Links w' (Function.update w.reslOf th rest)
  accounts : Accounts w' (some th)
  tm : w'.tm = w.tm
  number : w'.number = w.number
  has : ∀ o b m, Has w' o b m ↔ Has w o b m
  log : ∀ e, w.log.count e ≤ w'.log.count e
  res : ∀ b, (w'.ress b).map AsThreadRes.number = (w.ress b).map AsThreadRes.number

theorem freeRes_loop {w : MwWorker} {th : Addr} (h : Owner w (some th))
    (hlive : (w.number th).isSome) {E : WFault → Prop} :
    Meets ((w.reslOf th).foldlM freeRes w) (Freeing w th []) E := by
  refine Meets.foldlM (I := Freeing w th) (fun a rest w1 h1 => ?_)
    ⟨by rw [Function.update_eq_self]; exact h.1, h.2, rfl, rfl, fun _ _ _ => .rfl,
      fun _ => Nat.le_refl _, fun _ => rfl⟩
  have hlive1 : (w1.number th).isSome := by
    rw [h1.number]
    exact hlive
  have hl : Function.update w.reslOf th (a :: rest) th = a :: rest := Function.update_self ..
  obtain ⟨r, hr, hth⟩ := h1.links.linked th a hlive1 (by rw [hl]; exact .head _)
  have hf : r.freef = true := by
    rw [h1.links.freef a r hr, hth]
    rfl
  obtain ⟨w2, hrun, hfrees⟩ := freeRes_frees hr hf (h1.accounts.opened a r hr hf)
  rw [hrun]
  refine ⟨?_, hfrees.accounts h1.links h1.accounts hr hf, hfrees.tm.trans h1.tm,
    hfrees.number.trans h1.number, fun o b m => (hfrees.has o b m).trans (h1.has o b m), ?_, ?_⟩
  · have hlinks := hfrees.links h1.links hlive1 hl hr
    rwa [Function.update_idem] at hlinks
  · intro e
    rw [hfrees.log, List.count_append]
    exact Nat.le_trans (h1.log e) (Nat.le_add_right _ _)
  · intro b
    rw [hfrees.res_number hr, h1.res]

/-! ## The blocks of the thread -/

theorem Owner.note_threadFree {w : MwWorker} (h : Owner w none) {th : Addr} {n : Nat}
    (hn : w.number th = some n) : Owner (w.note (.threadFree n)) (some th) := by
  have hcount : ∀ e, e ≠ .threadFree n → (w.note (.threadFree n)).log.count e = w.log.count e := by
    intro e he
    simp [MwWorker.note, List.count_append, he.symm]
  have hmem : ∀ e, e ∈ (w.note (.threadFree n)).log → e ∈ w.log ∨ e = .threadFree n := by
    intro e he
    simpa [MwWorker.note] using he
  obtain ⟨hrec, hfree⟩ := h.2.thread th n hn
  rw [if_neg (by simp)] at hfree
  refine ⟨{ h.1 with }, h.2.opened, ?_, ?_, ?_, ?_, ?_⟩
  · intro a r hr
    rw [hcount (.resRecycle r.number) (by simp), hcount (.fdClose r.number) (by simp)]
    exact h.2.res a r hr
  · intro x m hm
    rw [hcount (.threadRecycle m) (by simp)]
    refine ⟨(h.2.thread x m hm).1, ?_⟩
    by_cases hx : th = x
    · subst hx
      rw [show w.number th = some m from hm, Option.some.injEq] at hn
      subst hn
      simp [MwWorker.note, List.count_append, hfree]
    · rw [if_neg (by simpa using hx), hcount]
      · rw [(h.2.thread x m hm).2, if_neg (by simp)]
      · intro he
        cases he
        obtain ⟨a, -, ha, -⟩ := thread_has h.1 hn
        obtain ⟨b, -, hb, -⟩ := thread_has h.1 (show w.number x = some n from hm)
        cases h.1.sole _ _ _ _ _ ha hb
        exact hx rfl
  · intro m hm
    obtain ⟨hne, hcase⟩ := h.2.threads m ((hmem _ hm).resolve_right (by simp))
    rw [hcount (.threadRecycle m) (by simp), hcount (.resRecycle m) (by simp),
      hcount (.fdClose m) (by simp)]
    refine ⟨hne, hcase.imp_right fun hdone => ?_⟩
    rw [hcount]
    · exact hdone
    · intro he
      cases he
      rw [hfree] at hdone
      exact absurd hdone.1 (by decide)
  · intro m hm
    rw [hcount (.resRecycle m) (by simp), hcount (.fdClose m) (by simp)]
    exact h.2.sockets m ((hmem _ hm).resolve_right (by simp))
  · intro e he m hm
    rcases hmem e he with he | rfl
    · exact h.2.old e he m hm
    · cases hm
      obtain ⟨a, r, -, hr, rfl⟩ := thread_has h.1 hn
      exact (h.1.old a r hr).2

/-- `memp_recycle(th->mfd_res)` and `memp_recycle(th)` -/
structure Recycles (w w' : MwWorker) (th a : Addr) (n : Nat) : Prop where
  has : Has w (.thread th) a n
  tm : w'.tm = w.tm
  socks : w'.socks = w.socks
  fds : w'.fds = w.fds
  next : w'.next = w.next
  number : w'.number = Function.update w.number th none
  ress : w'.ress = Function.update w.ress a none
  log : w'.log = w.log ++ [.resRecycle n, .threadRecycle n]

namespace Recycles

variable {w w' : MwWorker} {th a : Addr} {n : Nat} {lists : Addr → List Addr}

theorem has_iff (h : Recycles w w' th a n) (o : Holder) (b : Addr) (m : Nat) :
    Has w' o b m ↔ o ≠ .thread th ∧ Has w o b m := by
  cases o with
  | thread x =>
      rw [Has, Has, h.number, h.tm]
      by_cases hx : x = th
      · subst hx
        simp
      · rw [Function.update_of_ne hx]
        exact (and_iff_right (by simpa using hx)).symm
  | userdata u =>
      rw [Has, Has, h.socks]
      exact (and_iff_right (by simp)).symm

theorem live (h : Recycles w w' th a n) {x : Addr} (hx : (w'.number x).isSome) :
    x ≠ th ∧ (w.number x).isSome := by
  obtain ⟨m, hm⟩ := Option.isSome_iff_exists.mp hx
  obtain ⟨hne, hm⟩ := of_update_none h.number hm
  rw [hm]
  exact ⟨hne, rfl⟩

theorem res_of (h : Recycles w w' th a n) {b : Addr} {r : AsThreadRes} (hr : w'.ress b = some r) :
    b ≠ a ∧ w.ress b = some r :=
  of_update_none h.ress hr

theorem res_of_ne (h : Recycles w w' th a n) {b : Addr} (hb : b ≠ a) : w'.ress b = w.ress b := by
  rw [h.ress, Function.update_of_ne hb]

theorem count (h : Recycles w w' th a n) {e : WorkerEvent} (hres : e ≠ .resRecycle n)
    (hth : e ≠ .threadRecycle n) : w'.log.count e = w.log.count e := by
  simp [h.log, List.count_append, hres.symm, hth.symm]

/-- The `mfd_res` of a thread whose list has been emptied has been closed by then. -/
theorem closed (h : Recycles w w' th a n) (hw : Links w lists) (hl : lists th = [])
    {r : AsThreadRes} (hr : w.ress a = some r) : r.th = none ∧ r.number = n := by
  constructor
  · cases hth : r.th with
    | none => rfl
    | some x =>
        obtain rfl := hw.own th a n r x h.has hr hth
        have hmem := (hw.owned a r x hr hth).2
        rw [hl] at hmem
        cases hmem
  · obtain ⟨r', hr', hn⟩ := hw.has _ a n h.has
    rw [hr, Option.some.injEq] at hr'
    exact hr' ▸ hn

theorem links (h : Recycles w w' th a n) (hw : Links w lists) (hl : lists th = []) :
    Links w' lists := by
  obtain ⟨r0, hr0, hn0⟩ := hw.has _ a n h.has
  obtain ⟨hth0, -⟩ := h.closed hw hl hr0
  have hne : ∀ o b m, Has w' o b m → b ≠ a := by
    intro o b m ho
    obtain ⟨hoth, ho⟩ := (h.has_iff o b m).mp ho
    exact hw.apart h.has ho hoth
  refine ⟨?_, fun x hx => hw.nodup x (h.live hx).2, ?_, fun b r hr => hw.freef b r (h.res_of hr).2,
    ?_, fun x b m r y hm hr hy => hw.own x b m r y ((h.has_iff _ b m).mp hm).2 (h.res_of hr).2 hy,
    ?_, ?_, ?_, fun b r hr => h.next ▸ hw.old b r (h.res_of hr).2, h.next ▸ hw.next⟩
  · intro x b hx hb
    obtain ⟨r, hr, hrx⟩ := hw.linked x b (h.live hx).2 hb
    refine ⟨r, (h.res_of_ne ?_).trans hr, hrx⟩
    rintro rfl
    rw [hr0, Option.some.injEq] at hr
    subst hr
    rw [hth0] at hrx
    cases hrx
  · intro b r x hr hx
    obtain ⟨hlive, hmem⟩ := hw.owned b r x (h.res_of hr).2 hx
    refine ⟨?_, hmem⟩
    rw [h.number, Function.update_of_ne]
    · exact hlive
    · rintro rfl
      rw [hl] at hmem
      cases hmem
  · intro x hx
    rw [h.tm]
    exact hw.mfd x (h.live hx).2
  · intro o b m ho
    obtain ⟨r, hr, hrm⟩ := hw.has o b m ((h.has_iff o b m).mp ho).2
    exact ⟨r, (h.res_of_ne (hne o b m ho)).trans hr, hrm⟩
  · intro o1 o2 b1 b2 m h1 h2
    exact hw.sole o1 o2 b1 b2 m ((h.has_iff o1 b1 m).mp h1).2 ((h.has_iff o2 b2 m).mp h2).2
  · intro b b' r r' hr hr' hn
    exact hw.uniq b b' r r' (h.res_of hr).2 (h.res_of hr').2 hn

theorem accounts (h : Recycles w w' th a n) (hl : Links w lists) (hnil : lists th = [])
    (hw : Accounts w (some th)) : Accounts w' none := by
  obtain ⟨r0, hr0, hn0⟩ := hl.has _ a n h.has
  obtain ⟨hth0, -⟩ := h.closed hl hnil hr0
  obtain ⟨hrec, hclose⟩ := hw.res a r0 hr0
  rw [hl.freef a r0 hr0, hth0, hn0,
    if_neg (show ¬(none : Option Addr).isSome = true by decide)] at hclose
  rw [hn0] at hrec
  obtain ⟨hthread, hfree⟩ := hw.thread th n h.has.1
  rw [if_pos rfl] at hfree
  have hmem : ∀ e ∈ w'.log, e ∈ w.log ∨ e = .resRecycle n ∨ e = .threadRecycle n := by
    intro e he
    simpa [h.log] using he
  have hres : ∀ m, m ≠ n → w'.log.count (.resRecycle m) = w.log.count (.resRecycle m) :=
    fun m hm => h.count (by simpa using hm) nofun
  have hthr : ∀ m, m ≠ n → w'.log.count (.threadRecycle m) = w.log.count (.threadRecycle m) :=
    fun m hm => h.count nofun (by simpa using hm)
  have hfre : ∀ m, w'.log.count (.threadFree m) = w.log.count (.threadFree m) :=
    fun m => h.count nofun nofun
  have hclo : ∀ m, w'.log.count (.fdClose m) = w.log.count (.fdClose m) :=
    fun m => h.count nofun nofun
  have hne : ∀ b r, w'.ress b = some r → r.number ≠ n := by
    intro b r hr
    obtain ⟨hb, hr⟩ := h.res_of hr
    exact hl.number_ne h.has hr hb
  refine ⟨?_, ?_, ?_, ?_, ?_, ?_⟩
  · intro b r hr hf
    rw [h.fds]
    exact hw.opened b r (h.res_of hr).2 hf
  · intro b r hr
    rw [hres _ (hne b r hr), hclo]
    exact hw.res b r (h.res_of hr).2
  · intro x m hm
    obtain ⟨hx, -⟩ := h.live (by rw [hm]; rfl)
    rw [h.number, Function.update_of_ne hx] at hm
    obtain ⟨b, r, hb, -, -⟩ := thread_has hl hm
    have hmn : m ≠ n := by
      rintro rfl
      cases hl.sole _ _ _ _ _ hb h.has
      exact hx rfl
    rw [hthr m hmn, hfre, if_neg nofun, (hw.thread x m hm).2, if_neg (by simpa using Ne.symm hx)]
    exact ⟨(hw.thread x m hm).1, rfl⟩
  · intro m hm
    obtain ⟨hpos, hcase⟩ := hw.threads m ((hmem _ hm).resolve_right (by simp))
    refine ⟨hpos, ?_⟩
    rw [hfre, hclo]
    by_cases hmn : m = n
    · subst hmn
      refine .inr ⟨hfree, ?_, ?_, hclose⟩
      · simp [h.log, List.count_append, hthread]
      · simp [h.log, List.count_append, hrec]
    · rw [hres m hmn, hthr m hmn]
      refine hcase.imp_left ?_
      rintro ⟨x, hx⟩
      refine ⟨x, ?_⟩
      rw [h.number, Function.update_of_ne, hx]
      rintro rfl
      rw [h.has.1, Option.some.injEq] at hx
      exact hmn hx.symm
  · intro m hm
    obtain ⟨hpos, hcase⟩ := hw.sockets m ((hmem _ hm).resolve_right (by simp))
    rw [hclo]
    refine ⟨hpos, hcase.imp ?_ ?_⟩
    · rintro ⟨u, b, hu⟩
      exact ⟨u, b, (h.has_iff _ b m).mpr ⟨nofun, hu⟩⟩
    · intro hdone
      rw [hres]
      · exact hdone
      · rintro rfl
        rw [hrec] at hdone
        exact absurd hdone.1 (by decide)
  · intro e he m hm
    rw [h.next]
    have hold : n < w.next := hn0 ▸ (hl.old a r0 hr0).2
    rcases hmem e he with he | rfl | rfl
    · exact hw.old e he m hm
    · cases hm
      exact hold
    · cases hm
      exact hold

end Recycles

/-- What is left when a thread has been freed: everything that is still there has its
one owner, the other threads have lost no more than was recycled, and nobody holds
anything new. -/
structure Released (w w' : MwWorker) : Prop where
  owner : Owner w' none
  thins : Thins w w'
  has : ∀ o b m, Has w' o b m → Has w o b m

theorem releaseThread_owner {w : MwWorker} (h : Owner w none) (lua : Lua) {th : Addr}
    (hlive : (w.number th).isSome) {E : WFault → Prop} (henv : E .env) :
    Meets (releaseThread lua w th) (Released w) E := by
  obtain ⟨n, hn⟩ := Option.isSome_iff_exists.mp hlive
  let w1 : MwWorker := w.note (.threadFree n)
  have h1 : Owner w1 (some th) := h.note_threadFree hn
  have hthin1 : Thins w w1 := by
    refine .of_eq h1.2 (fun e => ?_) fun x hx => ⟨hx, rfl⟩
    rw [show w1.log = w.log ++ [.threadFree n] from rfl, List.count_append]
    exact Nat.le_add_right _ _
  -- `asthread_th_free`
  have hfree : Meets (asthreadThFree lua w th)
      (fun w3 => ∃ w2, Collected w1 (some th) w2 ∧ Freeing w2 th [] w3) E := by
    simp only [asthreadThFree, hn]
    refine (luaCollect_owner h1 lua henv).bind fun w2 h2 => ?_
    have hlive2 : (w2.number th).isSome := by
      rw [h2.2.number]
      exact hlive
    rw [MwWorker.thread_eq hlive2, wbind_ok]
    exact (freeRes_loop h2.1 hlive2).imp fun w3 h3 => ⟨w2, h2, h3⟩
  refine hfree.bind fun w3 hw3 => ?_
  obtain ⟨w2, h2, h3⟩ := hw3
  have hn3 : w3.number th = some n := by
    rw [h3.number, h2.2.number]
    exact hn
  obtain ⟨a, ha⟩ := h3.links.mfd th (by rw [hn3]; rfl)
  obtain ⟨r, hr, hrn⟩ := h3.links.has (.thread th) a n ⟨hn3, ha⟩
  let w5 : MwWorker :=
    { w3 with
      number := Function.update w3.number th none
      ress := Function.update w3.ress a none
      log := w3.log ++ [.resRecycle n, .threadRecycle n] }
  have hrun : (recycleMfdRes w3 th >>= fun w4 => w4.recycleThread th) = .ok w5 := by
    have hmfd : recycleMfdRes w3 th
        = .ok ({ w3 with ress := Function.update w3.ress a none }.note (.resRecycle n)) := by
      simp only [recycleMfdRes, MwWorker.thread_eq (show (w3.number th).isSome by rw [hn3]; rfl),
        wbind_ok, ha, MwWorker.recycleRes, hr, hrn]
    rw [hmfd, wbind_ok]
    simp only [MwWorker.recycleThread, MwWorker.note, hn3, List.append_assoc]
    rfl
  have hrec : Recycles w3 w5 th a n := ⟨⟨hn3, ha⟩, rfl, rfl, rfl, rfl, rfl, rfl, rfl⟩
  have hnil : Function.update w2.reslOf th [] th = [] := Function.update_self ..
  have howner : Owner w5 none := by
    refine ⟨(hrec.links h3.links hnil).congr ?_, hrec.accounts h3.links hnil h3.accounts⟩
    intro x hx
    rw [Function.update_of_ne (hrec.live hx).1]
    exact congrArg AsThread.resl (congrArg (fun tm => tm.threads x) h3.tm)
  have hhas : ∀ o b m, Has w5 o b m → Has w o b m := by
    intro o b m ho
    have ho1 := h2.2.has o b m ((h3.has o b m).mp ((hrec.has_iff o b m).mp ho).2)
    cases o <;> exact ho1
  refine hrun ▸ ⟨howner, (hthin1.trans h2.2.thins).trans (.of_eq howner.2 ?_ ?_), hhas⟩
  · intro e
    rw [show w5.log = w3.log ++ _ from rfl, List.count_append]
    exact Nat.le_trans (h3.log e) (Nat.le_add_right _ _)
  · intro x hx
    obtain ⟨hxth, hx3⟩ := hrec.live hx
    have hx2 : (w2.number x).isSome := h3.number ▸ hx3
    refine ⟨hx2, ?_⟩
    have hresl : w5.reslOf x = w2.reslOf x :=
      congrArg AsThread.resl (congrArg (fun tm => tm.threads x) h3.tm)
    rw [MwWorker.linked, MwWorker.linked, hresl]
    refine List.filterMap_congr fun b hb => ?_
    obtain ⟨r', hr', hrx⟩ := h3.links.linked x b hx3 (by rwa [Function.update_of_ne hxth])
    rw [hrec.res_of_ne, h3.res]
    rintro rfl
    rw [(hrec.closed h3.links hnil hr').1] at hrx
    cases hrx

end Artorias
