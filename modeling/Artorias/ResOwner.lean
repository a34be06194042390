import Mathlib.Data.List.Count
import Artorias.WorkerFlow

/-!
# Who owns a resource

A resource is in the list of a thread as long as that thread is to close it,
and it has a holder that is to recycle it: the userdata that has been made with
it, or for the first one of a thread the thread. `Links` says how the pointers
between them agree; `Accounts` says what has been closed and recycled of each
number so far.

While a thread is freed its resources leave it one by one, so the lists are
given besides (`links`), and so is the thread that is being freed.
-/

namespace Artorias

/-- The number of an event that is about a thread or a socket; 0 is the number
of the descriptor to accept from. -/
def WorkerEvent.number : WorkerEvent → Option Nat
  | .threadInit n | .threadFree n | .threadRecycle n | .socketNew n | .resRecycle n => some n
  | .fdClose n => if n = 0 then none else some n
  | .ioWait _ => none

theorem number_fdClose {n : Nat} (h : n ≠ 0) : (WorkerEvent.fdClose n).number = some n := if_neg h

theorem of_update_none {α : Type} {f g : Addr → Option α} {a b : Addr} {x : α}
    (h : g = Function.update f a none) (hx : g b = some x) : b ≠ a ∧ f b = some x := by
  subst h
  by_cases hb : b = a
  · subst hb
    rw [Function.update_self] at hx
    cases hx
  · rw [Function.update_of_ne hb] at hx
    exact ⟨hb, hx⟩

/-- The lists of the threads. -/
def MwWorker.reslOf (w : MwWorker) (th : Addr) : List Addr := (w.tm.threads th).resl

inductive Holder where
  | thread (th : Addr)
  | userdata (u : Addr)

/-- `o` is to recycle the resource `a`, and has been made with it. -/
def Has (w : MwWorker) : Holder → Addr → Nat → Prop
  | .thread th, a, n => w.number th = some n ∧ (w.tm.threads th).mfdRes = some a
  | .userdata u, a, n => w.socks u = some ⟨some a, .custom, n⟩

structure Links (w : MwWorker) (links : Addr → List Addr) : Prop where
  linked : ∀ th a, (w.number th).isSome → a ∈ links th → ∃ r, w.ress a = some r ∧ r.th = some th
  nodup : ∀ th, (w.number th).isSome → (links th).Nodup
  owned : ∀ a r th, w.ress a = some r → r.th = some th → (w.number th).isSome ∧ a ∈ links th
  freef : ∀ a r, w.ress a = some r → r.freef = r.th.isSome
  mfd : ∀ th, (w.number th).isSome → ∃ a, (w.tm.threads th).mfdRes = some a
  own : ∀ th a n r x, Has w (.thread th) a n → w.ress a = some r → r.th = some x → x = th
  has : ∀ o a n, Has w o a n → ∃ r, w.ress a = some r ∧ r.number = n
  sole : ∀ o o' a a' n, Has w o a n → Has w o' a' n → o = o'
  uniq : ∀ a a' r r', w.ress a = some r → w.ress a' = some r' → r.number = r'.number → a = a'
  old : ∀ a r, w.ress a = some r → r.number ≠ 0 ∧ r.number < w.next
  next : w.next ≠ 0

/-- The part of `Links` that is about resources and lists, and not about holders. -/
structure LinkedAt (w : MwWorker) (links : Addr → List Addr) : Prop where
  linked : ∀ th a, (w.number th).isSome → a ∈ links th → ∃ r, w.ress a = some r ∧ r.th = some th
  nodup : ∀ th, (w.number th).isSome → (links th).Nodup
  owned : ∀ a r th, w.ress a = some r → r.th = some th → (w.number th).isSome ∧ a ∈ links th
  freef : ∀ a r, w.ress a = some r → r.freef = r.th.isSome
  uniq : ∀ a a' r r', w.ress a = some r → w.ress a' = some r' → r.number = r'.number → a = a'
  old : ∀ a r, w.ress a = some r → r.number ≠ 0 ∧ r.number < w.next
  next : w.next ≠ 0

theorem Links.linkedAt {w : MwWorker} {links : Addr → List Addr} (h : Links w links) :
    LinkedAt w links := { h with }

structure Accounts (w : MwWorker) (freeing : Option Addr) : Prop where
  opened : ∀ a r, w.ress a = some r → r.freef = true → w.fds r.d = some r.number
  res : ∀ a r, w.ress a = some r → w.log.count (.resRecycle r.number) = 0
    ∧ w.log.count (.fdClose r.number) = if r.freef then 0 else 1
  thread : ∀ th n, w.number th = some n → w.log.count (.threadRecycle n) = 0
    ∧ w.log.count (.threadFree n) = if freeing = some th then 1 else 0
  threads : ∀ n, .threadInit n ∈ w.log → n ≠ 0 ∧ ((∃ th, w.number th = some n)
    ∨ w.log.count (.threadFree n) = 1 ∧ w.log.count (.threadRecycle n) = 1
      ∧ w.log.count (.resRecycle n) = 1 ∧ w.log.count (.fdClose n) = 1)
  sockets : ∀ n, .socketNew n ∈ w.log → n ≠ 0 ∧ ((∃ u a, Has w (.userdata u) a n)
    ∨ w.log.count (.resRecycle n) = 1 ∧ w.log.count (.fdClose n) = 1)
  old : ∀ e ∈ w.log, ∀ n, e.number = some n → n < w.next

/-- Both, the thread `freeing` being freed if there is one. -/
def Owner (w : MwWorker) (freeing : Option Addr) : Prop :=
  Links w w.reslOf ∧ Accounts w freeing

section
variable {w : MwWorker} {links : Addr → List Addr} {o o' : Holder} {a b : Addr} {n m : Nat}

/-- Two holders do not hold one block, since the block knows the holder that it was made
with. -/
theorem Links.apart (hw : Links w links) (h : Has w o a n) (h' : Has w o' b m) (ho : o' ≠ o) :
    b ≠ a := by
  rintro rfl
  obtain ⟨r, hr, hn⟩ := hw.has o b n h
  obtain ⟨r', hr', hm⟩ := hw.has o' b m h'
  rw [hr, Option.some.injEq] at hr'
  subst hr' hn hm
  exact ho (hw.sole o' o b b r.number h' h)

theorem Links.number_ne (hw : Links w links) (h : Has w o a n) {r : AsThreadRes}
    (hr : w.ress b = some r) (hb : b ≠ a) : r.number ≠ n := by
  obtain ⟨r', hr', hn⟩ := hw.has o a n h
  exact fun he => hb (hw.uniq b a r r' hr hr' (he.trans hn.symm))

/-- Two resources with open descriptors have different ones, since a descriptor has one
number. -/
theorem Accounts.fd_ne {freeing : Option Addr} (hw : Accounts w freeing) (hl : Links w links)
    {r r' : AsThreadRes} (hr : w.ress a = some r) (hfd : w.fds r.d = some r.number)
    (hr' : w.ress b = some r') (hf' : r'.freef = true) (hb : b ≠ a) : r'.d ≠ r.d := by
  intro hd
  have hfd' := hw.opened b r' hr' hf'
  rw [hd, hfd, Option.some.injEq] at hfd'
  exact hb (hl.uniq b a r' r hr' hr hfd'.symm)

end

/-! ## The start -/

/-- Nothing has been made yet. -/
structure Begun (w : MwWorker) : Prop where
  number : ∀ th, w.number th = none
  ress : ∀ a, w.ress a = none
  socks : ∀ u, w.socks u = none
  log : w.log = []
  next : w.next ≠ 0

theorem startWorker_begun : Begun startWorker :=
  ⟨fun _ => rfl, fun _ => rfl, fun _ => rfl, rfl, by decide⟩

theorem Begun.owner {w : MwWorker} (h : Begun w) : Owner w none := by
  have hlive : ∀ th, ¬(w.number th).isSome := fun th hn => by
    rw [h.number th] at hn
    cases hn
  have hres : ∀ a r, w.ress a ≠ some r := fun a r hr => by
    rw [h.ress a] at hr
    cases hr
  have hhas : ∀ o a n, ¬Has w o a n := by
    rintro (th | u) a n ho
    · exact hlive th (by rw [ho.1]; rfl)
    · rw [Has, h.socks u] at ho
      cases ho
  have hlog : ∀ e, e ∉ w.log := fun e he => by
    rw [h.log] at he
    cases he
  exact ⟨⟨fun th _ hn => absurd hn (hlive th), fun th hn => absurd hn (hlive th),
    fun a r _ hr => absurd hr (hres a r), fun a r hr => absurd hr (hres a r),
    fun th hn => absurd hn (hlive th), fun _ a _ r _ _ hr => absurd hr (hres a r),
    fun o a n ho => absurd ho (hhas o a n), fun o _ a _ n ho => absurd ho (hhas o a n),
    fun a _ r _ hr => absurd hr (hres a r), fun a r hr => absurd hr (hres a r), h.next⟩,
    ⟨fun a r hr => absurd hr (hres a r), fun a r hr => absurd hr (hres a r),
    fun th n hn => absurd (by rw [hn]; rfl) (hlive th), fun n hn => absurd hn (hlog _),
    fun n hn => absurd hn (hlog _), fun e he => absurd he (hlog e)⟩⟩

/-! ## Changes that nobody owns -/

/-- All of a resource but its status. -/
def AsThreadRes.owner (r : AsThreadRes) : Bool × Option Addr × Int × Nat :=
  (r.freef, r.th, r.d, r.number)

/-- `w'` differs from `w` in nothing that ownership is about; there may be new
descriptors, which are nobody's. -/
structure SameOwners (w w' : MwWorker) : Prop where
  number : w'.number = w.number
  holds : ∀ u a n, Has w' (.userdata u) a n ↔ Has w (.userdata u) a n
  fds : ∀ fd n, n ≠ 0 → w.fds fd = some n → w'.fds fd = some n
  next : w.next ≤ w'.next
  log : ∀ e n, e.number = some n → w'.log.count e = w.log.count e
  ress : ∀ a, (w'.ress a).map AsThreadRes.owner = (w.ress a).map AsThreadRes.owner
  threads : ∀ th, (w.number th).isSome → (w'.tm.threads th).mfdRes = (w.tm.threads th).mfdRes
    ∧ (w'.tm.threads th).resl = (w.tm.threads th).resl

/-- The lists of live threads are all that `LinkedAt` is about. -/
theorem LinkedAt.congr {w : MwWorker} {links links' : Addr → List Addr} (h : LinkedAt w links)
    (heq : ∀ th, (w.number th).isSome → links' th = links th) : LinkedAt w links' := by
  refine { h with
    linked := fun th a hn ha => h.linked th a hn (heq th hn ▸ ha)
    nodup := fun th hn => (heq th hn).symm ▸ h.nodup th hn
    owned := fun a r th hr hth => ?_ }
  obtain ⟨hn, ha⟩ := h.owned a r th hr hth
  exact ⟨hn, (heq th hn).symm ▸ ha⟩

theorem Links.congr {w : MwWorker} {links links' : Addr → List Addr} (h : Links w links)
    (heq : ∀ th, (w.number th).isSome → links' th = links th) : Links w links' :=
  { h.linkedAt.congr heq, h with }

namespace SameOwners

variable {w w' w'' : MwWorker}

theorem refl (w : MwWorker) : SameOwners w w :=
  ⟨rfl, fun _ _ _ => .rfl, fun _ _ _ h => h, Nat.le_refl _, fun _ _ _ => rfl,
    fun _ => rfl, fun _ _ => ⟨rfl, rfl⟩⟩

theorem trans (h : SameOwners w w') (h' : SameOwners w' w'') : SameOwners w w'' :=
  ⟨h'.number.trans h.number, fun u a n => (h'.holds u a n).trans (h.holds u a n),
    fun fd n hn he => h'.fds fd n hn (h.fds fd n hn he), Nat.le_trans h.next h'.next,
    fun e n he => (h'.log e n he).trans (h.log e n he), fun a => (h'.ress a).trans (h.ress a),
    fun th hn =>
      have h2 := h'.threads th (h.number ▸ hn)
      ⟨h2.1.trans (h.threads th hn).1, h2.2.trans (h.threads th hn).2⟩⟩

theorem of_core (h : SameCore w w') : SameOwners w w' :=
  ⟨h.number, fun u a n => by rw [Has, Has, h.socks], fun fd n _ he => by rw [h.fds, he],
    Nat.le_of_eq h.next.symm, fun e _ _ => by rw [h.log], fun a => by rw [h.ress],
    fun th _ => (h.threads th).2⟩

/-- A change of a resource's status, or of what `epoll` watches, leaves who owns what. -/
theorem of_setRes {a : Addr} {r r' : AsThreadRes} (hr : w.ress a = some r)
    (ho : r'.owner = r.owner) : SameOwners w (w.setRes a r') := by
  refine { refl w with ress := fun b => ?_ }
  dsimp only [MwWorker.setRes]
  by_cases hb : b = a
  · subst hb
    rw [Function.update_self, hr]
    exact congrArg some ho
  · rw [Function.update_of_ne hb]

theorem of_watch (w : MwWorker) (fd : Int) (ev : BitVec 32) (a : Addr) :
    SameOwners w (w.watch fd ev a) := { refl w with }

theorem res (h : SameOwners w w') {a : Addr} {r : AsThreadRes} (hr : w.ress a = some r) :
    ∃ r', w'.ress a = some r' ∧ r'.freef = r.freef ∧ r'.th = r.th ∧ r'.d = r.d
      ∧ r'.number = r.number := by
  have ha := h.ress a
  rw [hr] at ha
  obtain ⟨r', hr', he⟩ := Option.map_eq_some_iff.mp ha
  simp only [AsThreadRes.owner, Prod.mk.injEq] at he
  exact ⟨r', hr', he⟩

theorem res_of (h : SameOwners w w') {a : Addr} {r' : AsThreadRes} (hr : w'.ress a = some r') :
    ∃ r, w.ress a = some r ∧ r'.freef = r.freef ∧ r'.th = r.th ∧ r'.d = r.d
      ∧ r'.number = r.number := by
  have ha := h.ress a
  rw [hr] at ha
  obtain ⟨r, hr, he⟩ := Option.map_eq_some_iff.mp ha.symm
  simp only [AsThreadRes.owner, Prod.mk.injEq] at he
  exact ⟨r, hr, he.1.symm, he.2.1.symm, he.2.2.1.symm, he.2.2.2.symm⟩

theorem mem_log (h : SameOwners w w') {e : WorkerEvent} {n : Nat} (he : e.number = some n) :
    e ∈ w'.log ↔ e ∈ w.log := by
  rw [← List.count_pos_iff, h.log e n he, List.count_pos_iff]

theorem has (h : SameOwners w w') (o : Holder) (a : Addr) (n : Nat) : Has w' o a n
    ↔ Has w o a n := by
  cases o with
  | thread th =>
      rw [Has, Has, h.number]
      refine and_congr_right fun hn => ?_
      rw [(h.threads th (by rw [hn]; rfl)).1]
  | userdata u => exact h.holds u a n

theorem reslOf (h : SameOwners w w') {th : Addr} (hn : (w.number th).isSome) :
    w'.reslOf th = w.reslOf th := (h.threads th hn).2

theorem linkedAt (h : SameOwners w w') {links : Addr → List Addr} (hw : LinkedAt w links) :
    LinkedAt w' links := by
  refine ⟨?_, ?_, ?_, ?_, ?_, ?_, ?_⟩
  · intro th a hn ha
    rw [h.number] at hn
    obtain ⟨r, hr, hth⟩ := hw.linked th a hn ha
    obtain ⟨r', hr', -, hth', -⟩ := h.res hr
    exact ⟨r', hr', hth'.trans hth⟩
  · intro th hn
    rw [h.number] at hn
    exact hw.nodup th hn
  · intro a r th hr hth
    obtain ⟨r0, hr0, -, hth0, -⟩ := h.res_of hr
    rw [h.number]
    exact hw.owned a r0 th hr0 (hth0.symm.trans hth)
  · intro a r hr
    obtain ⟨r0, hr0, hf, hth0, -⟩ := h.res_of hr
    rw [hf, hth0]
    exact hw.freef a r0 hr0
  · intro a a' r r' hr hr' hn
    obtain ⟨r0, hr0, -, -, -, hn0⟩ := h.res_of hr
    obtain ⟨r0', hr0', -, -, -, hn0'⟩ := h.res_of hr'
    exact hw.uniq a a' r0 r0' hr0 hr0' (hn0.symm.trans (hn.trans hn0'))
  · intro a r hr
    obtain ⟨r0, hr0, -, -, -, hn0⟩ := h.res_of hr
    rw [hn0]
    obtain ⟨hpos, hlt⟩ := hw.old a r0 hr0
    exact ⟨hpos, Nat.lt_of_lt_of_le hlt h.next⟩
  · have hpos := hw.next
    have hle := h.next
    omega

theorem links (h : SameOwners w w') {links : Addr → List Addr} (hw : Links w links) :
    Links w' links := by
  refine { h.linkedAt hw.linkedAt with mfd := ?_, own := ?_, has := ?_, sole := ?_ }
  · intro th hn
    rw [h.number] at hn
    rw [(h.threads th hn).1]
    exact hw.mfd th hn
  · intro th a n r x hm hr hx
    obtain ⟨r0, hr0, -, hth0, -⟩ := h.res_of hr
    exact hw.own th a n r0 x ((h.has _ a n).mp hm) hr0 (hth0.symm.trans hx)
  · intro o a n ho
    obtain ⟨r, hr, hrn⟩ := hw.has o a n ((h.has o a n).mp ho)
    obtain ⟨r', hr', -, -, -, hn'⟩ := h.res hr
    exact ⟨r', hr', hn'.trans hrn⟩
  · intro o o' a a' n ho ho'
    exact hw.sole o o' a a' n ((h.has o a n).mp ho) ((h.has o' a' n).mp ho')

theorem accounts (h : SameOwners w w') {links : Addr → List Addr} (hl : Links w links)
    {freeing : Option Addr} (hw : Accounts w freeing) : Accounts w' freeing := by
  refine ⟨?_, ?_, ?_, ?_, ?_, ?_⟩
  · intro a r hr hf
    obtain ⟨r0, hr0, hf0, -, hd0, hn0⟩ := h.res_of hr
    rw [hd0, hn0]
    exact h.fds _ _ (hl.old a r0 hr0).1 (hw.opened a r0 hr0 (hf0.symm.trans hf))
  · intro a r hr
    obtain ⟨r0, hr0, hf0, -, -, hn0⟩ := h.res_of hr
    rw [hn0, hf0, h.log _ _ rfl, h.log _ _ (number_fdClose (hl.old a r0 hr0).1)]
    exact hw.res a r0 hr0
  · intro th n hn
    rw [h.number] at hn
    rw [h.log _ _ rfl, h.log _ _ rfl]
    exact hw.thread th n hn
  · intro n hn
    obtain ⟨hne, hcase⟩ := hw.threads n ((h.mem_log rfl).mp hn)
    rw [h.number, h.log _ _ rfl, h.log _ _ rfl, h.log _ _ rfl, h.log _ _ (number_fdClose hne)]
    exact ⟨hne, hcase⟩
  · intro n hn
    obtain ⟨hne, hcase⟩ := hw.sockets n ((h.mem_log rfl).mp hn)
    rw [h.log _ _ rfl, h.log _ _ (number_fdClose hne)]
    refine ⟨hne, hcase.imp_left ?_⟩
    rintro ⟨u, a, hu⟩
    exact ⟨u, a, (h.holds u a n).mpr hu⟩
  · intro e he n hn
    rw [h.mem_log hn] at he
    exact Nat.lt_of_lt_of_le (hw.old e he n hn) h.next

theorem owner (h : SameOwners w w') {freeing : Option Addr} (hw : Owner w freeing) :
    Owner w' freeing := by
  refine ⟨(h.links hw.1).congr fun th hn => h.reslOf ?_, h.accounts hw.1 hw.2⟩
  rwa [h.number] at hn

theorem inUse (h : SameOwners w w') {a : Addr} (ha : (w.ress a).isSome) : (w'.ress a).isSome := by
  obtain ⟨r, hr⟩ := Option.isSome_iff_exists.mp ha
  obtain ⟨r', hr', -⟩ := h.res hr
  rw [hr']
  rfl

/-- A thread may be changed on both sides, as long as its `mfd_res` and its list are the
same in both. -/
theorem setThread (h : SameOwners w w') {th : Addr} {t t' : AsThread} (hmfd : t'.mfdRes = t.mfdRes)
    (hresl : t'.resl = t.resl) : SameOwners (w.setThread th t) (w'.setThread th t') := by
  refine ⟨h.number, h.holds, h.fds, h.next, h.log, h.ress, ?_⟩
  intro x hn
  by_cases hx : x = th
  · subst hx
    rw [MwWorker.setThread, MwWorker.setThread, ThreadMem.setThread_self, ThreadMem.setThread_self]
    exact ⟨hmfd, hresl⟩
  · rw [MwWorker.setThread, MwWorker.setThread, ThreadMem.setThread_of_ne _ _ hx,
      ThreadMem.setThread_of_ne _ _ hx]
    exact h.threads x hn

theorem of_setThread {th : Addr} {t : AsThread}
    (ht : (w.number th).isSome → t.mfdRes = (w.tm.threads th).mfdRes
      ∧ t.resl = (w.tm.threads th).resl) : SameOwners w (w.setThread th t) := by
  refine { refl w with threads := fun x hn => ?_ }
  by_cases hx : x = th
  · subst hx
    rw [MwWorker.setThread, ThreadMem.setThread_self]
    exact ht hn
  · rw [MwWorker.setThread, ThreadMem.setThread_of_ne _ _ hx]
    exact ⟨rfl, rfl⟩

theorem note (h : SameOwners w w') (e : WorkerEvent) : SameOwners (w.note e) (w'.note e) := by
  refine ⟨h.number, h.holds, h.fds, h.next, ?_, h.ress, h.threads⟩
  intro e' n hn
  dsimp only [MwWorker.note]
  rw [List.count_append, List.count_append, h.log e' n hn]

theorem of_note {e : WorkerEvent} (he : e.number = none) : SameOwners w (w.note e) := by
  refine { refl w with log := fun e' n hn => ?_ }
  dsimp only [MwWorker.note]
  rw [List.count_append, List.count_singleton, beq_false_of_ne, if_neg Bool.false_ne_true,
    Nat.add_zero]
  rintro rfl
  rw [he] at hn
  cases hn

end SameOwners

/-! ## Functions that leave owners as they are -/

section

variable {E : WFault → Prop} {w : MwWorker} {a th : Addr}

theorem MwWorker.res_eq {r : AsThreadRes} (h : w.ress a = some r) : w.res a = .ok r := by
  rw [MwWorker.res, h]

theorem asthreadResEvInit_owners (h : (w.ress a).isSome) :
    Meets (asthreadResEvInit w a) (SameOwners w) E := by
  obtain ⟨r, hr⟩ := Option.isSome_iff_exists.mp h
  simp only [asthreadResEvInit, MwWorker.res_eq hr, wbind_ok]
  split
  · exact (SameOwners.of_watch w r.d 0 a).trans (.of_setRes hr rfl)
  · exact .refl w

theorem asthreadResEvAdd_owners (h : (w.ress a).isSome) (ev : BitVec 32) :
    Meets (asthreadResEvAdd w a ev) (SameOwners w) E := by
  obtain ⟨r, hr⟩ := Option.isSome_iff_exists.mp h
  simp only [asthreadResEvAdd, MwWorker.res_eq hr, wbind_ok]
  split
  · exact (SameOwners.of_watch w r.d ev a).trans (.of_setRes hr rfl)
  · exact .refl w

theorem asthreadResEvDel_owners (h : (w.ress a).isSome) :
    Meets (asthreadResEvDel w a) (SameOwners w) E := by
  obtain ⟨r, hr⟩ := Option.isSome_iff_exists.mp h
  simp only [asthreadResEvDel, MwWorker.res_eq hr, wbind_ok]
  split
  · exact .refl w
  · split
    · exact (SameOwners.of_watch w r.d 0 a).trans (.of_setRes hr rfl)
    · exact .refl w

theorem asthreadRemoveResFromEpfd_owners (h : Links w w.reslOf) (hnum : (w.number th).isSome) :
    Meets (asthreadRemoveResFromEpfd w th) (SameOwners w) E := by
  simp only [asthreadRemoveResFromEpfd, MwWorker.thread_eq hnum, wbind_ok]
  have hloop : ∀ l : List Addr, (∀ b ∈ l, (w.ress b).isSome) → ∀ w', SameOwners w w' →
      Meets (l.foldlM asthreadResEvDel w') (SameOwners w) E := by
    intro l
    induction l with
    | nil => exact fun _ w' h' => h'
    | cons b l ih =>
        intro hl w' h'
        rw [List.foldlM_cons]
        refine (asthreadResEvDel_owners (h'.inUse (hl b (.head _)))).bind fun w2 h2 => ?_
        exact ih (fun c hc => hl c (.tail _ hc)) w2 (h'.trans h2)
  refine hloop _ (fun b hb => ?_) w (.refl w)
  obtain ⟨r, hr, -⟩ := h.linked th b hnum hb
  rw [hr]
  rfl

theorem evBeginLoop_owners (hscript : E .script) (henv : E .env) (socks : List (Addr × BitVec 32)) :
    ∀ w, Meets (evBeginLoop th socks w) (SameOwners w) E := by
  induction socks with
  | nil => exact .refl
  | cons s socks ih =>
      intro w
      obtain ⟨u, ev⟩ := s
      unfold evBeginLoop
      split
      · exact henv
      · split
        · exact .refl w
        · split
          · exact hscript
          · rename_i b _ _ r hr
            split
            · exact .refl w
            · have hset : SameOwners w (w.setRes b { r with status := .ev }) := .of_setRes hr rfl
              refine (asthreadResEvAdd_owners
                (hset.inUse (by rw [hr]; rfl)) ev).bind fun w2 h2 => ?_
              exact (ih w2).imp fun w3 h3 => (hset.trans h2).trans h3

theorem thread_has {lists : Addr → List Addr} (h : Links w lists) {n : Nat}
    (hn : w.number th = some n) :
    ∃ a r, Has w (.thread th) a n ∧ w.ress a = some r ∧ r.number = n := by
  obtain ⟨a, ha⟩ := h.mfd th (by rw [hn]; rfl)
  obtain ⟨r, hr, hrn⟩ := h.has (.thread th) a n ⟨hn, ha⟩
  exact ⟨a, r, ⟨hn, ha⟩, hr, hrn⟩

end

end Artorias
