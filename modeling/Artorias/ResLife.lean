import Artorias.ResOwner

/-!
# How a resource is made, closed and recycled

A resource is made for a holder and linked in a thread (`Creates`); a socket is
closed and its resource recycled (`Closes`). `Owner` is kept by both. Closing is
also what the collector does (`luaCollect_owner`).
-/

namespace Artorias

/-! ## A resource is made -/

/-- The number has been given to nothing but a descriptor. -/
structure Unused (w : MwWorker) (n : Nat) : Prop where
  pos : n ≠ 0
  old : n < w.next
  res : ∀ a r, w.ress a = some r → r.number ≠ n
  log : ∀ e ∈ w.log, e.number ≠ some n

theorem Unused.count {w : MwWorker} {n : Nat} (h : Unused w n) {e : WorkerEvent}
    (he : e.number = some n) : w.log.count e = 0 :=
  List.count_eq_zero.mpr fun hm => h.log e hm he

theorem Unused.not_has {w : MwWorker} {n : Nat} (h : Unused w n) {links : Addr → List Addr}
    (hl : Links w links) {o : Holder} {a : Addr} : ¬Has w o a n := by
  intro ho
  obtain ⟨r, hr, hrn⟩ := hl.has o a n ho
  exact h.res a r hr hrn

def Holder.made : Holder → Nat → WorkerEvent
  | .thread _, n => .threadInit n
  | .userdata _, n => .socketNew n

/-- `o` gets a resource at `a` that is linked in `th`. -/
structure Creates (w w' : MwWorker) (o : Holder) (th a : Addr) (n : Nat) : Prop where
  unused : Unused w n
  free : w.ress a = none
  res : ∃ r, w'.ress = Function.update w.ress a (some r) ∧ r.freef = true ∧ r.th = some th
    ∧ r.number = n ∧ w.fds r.d = some n
  fds : w'.fds = w.fds
  next : w'.next = w.next
  log : w'.log = w.log ++ [o.made n]
  holder : ∀ x, o = .thread x → x = th
  number : ∀ x m, w'.number x = some m ↔ w.number x = some m ∨ o = .thread x ∧ m = n
  has : ∀ o' b m, Has w' o' b m ↔ Has w o' b m ∨ o' = o ∧ b = a ∧ m = n
  live : (w'.number th).isSome
  others : ∀ x, x ≠ th → w'.reslOf x = w.reslOf x
  resl : ∃ l, w'.reslOf th = a :: l ∧ (l = if (w.number th).isSome then w.reslOf th else [])

namespace Creates

variable {w w' : MwWorker} {o : Holder} {th a : Addr} {n : Nat}

theorem res_of_ne (h : Creates w w' o th a n) {b : Addr} (hb : b ≠ a) : w'.ress b = w.ress b := by
  obtain ⟨r, hress, -⟩ := h.res
  rw [hress, Function.update_of_ne hb]

theorem ne_of_inUse (h : Creates w w' o th a n) {b : Addr} {r : AsThreadRes}
    (hr : w.ress b = some r) : b ≠ a := by
  rintro rfl
  rw [h.free] at hr
  cases hr

theorem live_of_ne (h : Creates w w' o th a n) {x : Addr} (hx : x ≠ th) :
    (w'.number x).isSome ↔ (w.number x).isSome := by
  simp only [Option.isSome_iff_exists, h.number]
  refine exists_congr fun m => or_iff_left fun ho => hx ?_
  exact h.holder x ho.1

theorem live_of_live (h : Creates w w' o th a n) {x : Addr} (hx : (w.number x).isSome) :
    (w'.number x).isSome := by
  obtain ⟨m, hm⟩ := Option.isSome_iff_exists.mp hx
  rw [(h.number x m).mpr (.inl hm)]
  rfl

theorem count (h : Creates w w' o th a n) {e : WorkerEvent} (hinit : ∀ m, e ≠ .threadInit m)
    (hnew : ∀ m, e ≠ .socketNew m) : w'.log.count e = w.log.count e := by
  have hne : o.made n ≠ e := by
    cases o with
    | thread x => exact (hinit n).symm
    | userdata u => exact (hnew n).symm
  rw [h.log, List.count_append, List.count_singleton, beq_false_of_ne hne,
    if_neg Bool.false_ne_true,
    Nat.add_zero]

/-- After a resource has been made, each resource is that one, or was there before and is
unchanged. -/
theorem res_cases (h : Creates w w' o th a n) : ∃ r0, w'.ress a = some r0 ∧ r0.freef = true
    ∧ r0.th = some th ∧ r0.number = n ∧ w.fds r0.d = some n
    ∧ ∀ b r, w'.ress b = some r → b = a ∧ r = r0 ∨ b ≠ a ∧ w.ress b = some r := by
  obtain ⟨r0, hress, hf0, hth0, hn0, hfd0⟩ := h.res
  have hself : w'.ress a = some r0 := by rw [hress, Function.update_self]
  refine ⟨r0, hself, hf0, hth0, hn0, hfd0, fun b r hr => ?_⟩
  by_cases hb : b = a
  · subst hb
    rw [hself] at hr
    exact .inl ⟨rfl, (Option.some.inj hr).symm⟩
  · rw [h.res_of_ne hb] at hr
    exact .inr ⟨hb, hr⟩

theorem res_stays (h : Creates w w' o th a n) {b : Addr} {r : AsThreadRes}
    (hr : w.ress b = some r) :
    w'.ress b = some r := by
  rw [h.res_of_ne (h.ne_of_inUse hr), hr]

theorem linkedAt (h : Creates w w' o th a n) (hw : LinkedAt w w.reslOf) :
    LinkedAt w' w'.reslOf := by
  obtain ⟨r0, hself, hf0, hth0, hn0, -, hcase⟩ := h.res_cases
  obtain ⟨l, hresl, hl⟩ := h.resl
  -- The older resources of `th`, if it is not a new thread.
  have hmem : ∀ b ∈ l, (w.number th).isSome ∧ b ∈ w.reslOf th := by
    intro b hb
    split at hl
    · exact ⟨‹_›, hl ▸ hb⟩
    · rw [hl] at hb
      cases hb
  refine ⟨?_, ?_, ?_, ?_, ?_, ?_, h.next ▸ hw.next⟩
  · intro x b hx hb
    by_cases hxth : x = th
    · subst hxth
      rw [hresl] at hb
      rcases List.mem_cons.mp hb with rfl | hb
      · exact ⟨r0, hself, hth0⟩
      · obtain ⟨hlive, hb⟩ := hmem b hb
        obtain ⟨r, hr, hrx⟩ := hw.linked x b hlive hb
        exact ⟨r, h.res_stays hr, hrx⟩
    · rw [h.others x hxth] at hb
      obtain ⟨r, hr, hrx⟩ := hw.linked x b ((h.live_of_ne hxth).mp hx) hb
      exact ⟨r, h.res_stays hr, hrx⟩
  · intro x hx
    by_cases hxth : x = th
    · subst hxth
      rw [hresl, List.nodup_cons]
      constructor
      · intro ha
        obtain ⟨hlive, ha⟩ := hmem a ha
        obtain ⟨r, hr, -⟩ := hw.linked x a hlive ha
        exact h.ne_of_inUse hr rfl
      · rw [hl]
        split
        · exact hw.nodup x ‹_›
        · exact .nil
    · rw [h.others x hxth]
      exact hw.nodup x ((h.live_of_ne hxth).mp hx)
  · intro b r x hr hx
    rcases hcase b r hr with ⟨rfl, rfl⟩ | ⟨-, hr⟩
    · rw [hth0, Option.some.injEq] at hx
      subst hx
      rw [hresl]
      exact ⟨h.live, .head _⟩
    · obtain ⟨hlive, hb⟩ := hw.owned b r x hr hx
      refine ⟨h.live_of_live hlive, ?_⟩
      by_cases hxth : x = th
      · subst hxth
        rw [hresl, hl, if_pos hlive]
        exact .tail _ hb
      · rwa [h.others x hxth]
  · intro b r hr
    rcases hcase b r hr with ⟨rfl, rfl⟩ | ⟨-, hr⟩
    · rw [hf0, hth0]
      rfl
    · exact hw.freef b r hr
  · intro b b' r r' hr hr' hn
    rcases hcase b r hr with ⟨rfl, rfl⟩ | ⟨-, hr⟩ <;> rcases hcase b' r' hr' with ⟨rfl, rfl⟩ |
      ⟨-, hr'⟩
    · rfl
    · exact absurd (hn.symm.trans hn0) (h.unused.res b' r' hr')
    · exact absurd (hn.trans hn0) (h.unused.res b r hr)
    · exact hw.uniq b b' r r' hr hr' hn
  · intro b r hr
    rw [h.next]
    rcases hcase b r hr with ⟨rfl, rfl⟩ | ⟨-, hr⟩
    · rw [hn0]
      exact ⟨h.unused.pos, h.unused.old⟩
    · exact hw.old b r hr

theorem links (h : Creates w w' o th a n) (hw : Links w w.reslOf) : Links w' w'.reslOf := by
  obtain ⟨r0, hself, -, hth0, hn0, -, hcase⟩ := h.res_cases
  refine { h.linkedAt hw.linkedAt with mfd := ?_, own := ?_, has := ?_, sole := ?_ }
  · intro x hx
    obtain ⟨m, hm⟩ := Option.isSome_iff_exists.mp hx
    rcases (h.number x m).mp hm with hm | ⟨ho, hmn⟩
    · obtain ⟨b, hb⟩ := hw.mfd x (by rw [hm]; rfl)
      exact ⟨b, ((h.has (.thread x) b m).mpr (.inl ⟨hm, hb⟩)).2⟩
    · exact ⟨a, ((h.has (.thread x) a m).mpr (.inr ⟨ho.symm, rfl, hmn⟩)).2⟩
  · intro x b m r y hm hr hy
    rcases (h.has (.thread x) b m).mp hm with hm | ⟨ho, rfl, -⟩
    · obtain ⟨r', hr', -⟩ := hw.has (.thread x) b m hm
      rcases hcase b r hr with ⟨rfl, rfl⟩ | ⟨-, hr⟩
      · exact absurd rfl (h.ne_of_inUse hr')
      · exact hw.own x b m r y hm hr hy
    · rw [hself, Option.some.injEq] at hr
      subst hr
      rw [hth0, Option.some.injEq] at hy
      exact hy.symm.trans (h.holder x ho.symm).symm
  · intro o' b m ho
    rcases (h.has o' b m).mp ho with ho | ⟨rfl, rfl, rfl⟩
    · obtain ⟨r, hr, hrn⟩ := hw.has o' b m ho
      exact ⟨r, h.res_stays hr, hrn⟩
    · exact ⟨r0, hself, hn0⟩
  · intro o1 o2 b1 b2 m h1 h2
    rcases (h.has o1 b1 m).mp h1 with h1 | ⟨rfl, -, rfl⟩ <;>
      rcases (h.has o2 b2 m).mp h2 with h2 | ⟨rfl, -, hm⟩
    · exact hw.sole o1 o2 b1 b2 m h1 h2
    · subst hm
      exact absurd h1 (h.unused.not_has hw)
    · exact absurd h2 (h.unused.not_has hw)
    · rfl

theorem accounts (h : Creates w w' o th a n) (hw : Accounts w none) : Accounts w' none := by
  obtain ⟨r0, -, hf0, -, hn0, hfd0, hres⟩ := h.res_cases
  have hcase : ∀ b r, w'.ress b = some r → r = r0 ∨ w.ress b = some r := fun b r hr =>
    (hres b r hr).imp And.right And.right
  have hrecycle : ∀ m, w'.log.count (.resRecycle m) = w.log.count (.resRecycle m) :=
    fun m => h.count nofun nofun
  have hclose : ∀ m, w'.log.count (.fdClose m) = w.log.count (.fdClose m) :=
    fun m => h.count nofun nofun
  have hfree : ∀ m, w'.log.count (.threadFree m) = w.log.count (.threadFree m) :=
    fun m => h.count nofun nofun
  have hthread : ∀ m, w'.log.count (.threadRecycle m) = w.log.count (.threadRecycle m) :=
    fun m => h.count nofun nofun
  refine ⟨?_, ?_, ?_, ?_, ?_, ?_⟩
  · intro b r hr hf
    rw [h.fds]
    rcases hcase b r hr with rfl | hr
    · rw [hfd0, hn0]
    · exact hw.opened b r hr hf
  · intro b r hr
    rw [hrecycle, hclose]
    rcases hcase b r hr with rfl | hr
    · rw [hn0, hf0, h.unused.count rfl, h.unused.count (number_fdClose h.unused.pos)]
      exact ⟨rfl, rfl⟩
    · exact hw.res b r hr
  · intro x m hm
    rw [hthread, hfree]
    rcases (h.number x m).mp hm with hm | ⟨-, rfl⟩
    · exact hw.thread x m hm
    · rw [h.unused.count rfl, h.unused.count rfl]
      exact ⟨rfl, rfl⟩
  · intro m hm
    rw [hfree, hthread, hrecycle, hclose]
    rw [h.log, List.mem_append, List.mem_singleton] at hm
    rcases hm with hm | hm
    · rcases hw.threads m hm with ⟨hne, hth | hdone⟩
      · exact ⟨hne, .inl (hth.imp fun x hx => (h.number x m).mpr (.inl hx))⟩
      · exact ⟨hne, .inr hdone⟩
    · cases o with
      | thread x =>
          cases hm
          exact ⟨h.unused.pos, .inl ⟨x, (h.number x n).mpr (.inr ⟨rfl, rfl⟩)⟩⟩
      | userdata u => cases hm
  · intro m hm
    rw [hrecycle, hclose]
    rw [h.log, List.mem_append, List.mem_singleton] at hm
    rcases hm with hm | hm
    · rcases hw.sockets m hm with ⟨hne, hu | hdone⟩
      · obtain ⟨u, b, hu⟩ := hu
        exact ⟨hne, .inl ⟨u, b, (h.has _ b m).mpr (.inl hu)⟩⟩
      · exact ⟨hne, .inr hdone⟩
    · cases o with
      | thread x => cases hm
      | userdata u =>
          cases hm
          exact ⟨h.unused.pos, .inl ⟨u, a, (h.has _ a n).mpr (.inr ⟨rfl, rfl, rfl⟩)⟩⟩
  · intro e he m hm
    rw [h.next]
    rw [h.log, List.mem_append, List.mem_singleton] at he
    rcases he with he | rfl
    · exact hw.old e he m hm
    · have hmn : (o.made n).number = some n := by cases o <;> rfl
      rw [hmn, Option.some.injEq] at hm
      exact hm ▸ h.unused.old

theorem owner (h : Creates w w' o th a n) (hw : Owner w none) : Owner w' none :=
  ⟨h.links hw.1, h.accounts hw.2⟩

end Creates

/-! ## A socket is closed -/

/-- The resource at `a` is gone, from the heap and from the list that it was in. -/
theorem LinkedAt.drop {w w' : MwWorker} {a : Addr} (hw : LinkedAt w w.reslOf)
    (hress : w'.ress = Function.update w.ress a none) (hnumber : w'.number = w.number)
    (hnext : w'.next = w.next)
    (hresl : ∀ th, (w.number th).isSome → w'.reslOf th = (w.reslOf th).erase a) :
    LinkedAt w' w'.reslOf := by
  have hof : ∀ {b r}, w'.ress b = some r → b ≠ a ∧ w.ress b = some r := of_update_none hress
  refine ⟨?_, ?_, ?_, ?_, ?_, ?_, hnext ▸ hw.next⟩
  · intro x b hx hb
    rw [hnumber] at hx
    rw [hresl x hx, (hw.nodup x hx).mem_erase_iff] at hb
    rw [hress, Function.update_of_ne hb.1]
    exact hw.linked x b hx hb.2
  · intro x hx
    rw [hnumber] at hx
    rw [hresl x hx]
    exact (hw.nodup x hx).erase a
  · intro b r x hr hx
    obtain ⟨hb, hr⟩ := hof hr
    obtain ⟨hlive, hmem⟩ := hw.owned b r x hr hx
    rw [hnumber, hresl x hlive]
    exact ⟨hlive, (List.mem_erase_of_ne hb).mpr hmem⟩
  · intro b r hr
    exact hw.freef b r (hof hr).2
  · intro b b' r r' hr hr' hn
    exact hw.uniq b b' r r' (hof hr).2 (hof hr').2 hn
  · intro b r hr
    rw [hnext]
    exact hw.old b r (hof hr).2

/-- The resource `a` is recycled, and before that closed if it has not been: no resource,
list or descriptor is concerned but its own. -/
structure Drops (w w' : MwWorker) (a : Addr) (r : AsThreadRes) : Prop where
  res : w.ress a = some r
  ress : w'.ress = Function.update w.ress a none
  number : w'.number = w.number
  next : w'.next = w.next
  mfd : ∀ th, (w'.tm.threads th).mfdRes = (w.tm.threads th).mfdRes
  resl : ∀ th, (w.number th).isSome → w'.reslOf th = (w.reslOf th).erase a
  fds : ∀ fd m, m ≠ r.number → w.fds fd = some m → w'.fds fd = some m
  log : w'.log = w.log
    ++ if r.freef then [.fdClose r.number, .resRecycle r.number] else [.resRecycle r.number]

/-- The resource `a` of the userdata `u` is recycled, and before that closed if
it has not been. -/
structure Closes (w w' : MwWorker) (u a : Addr) (n : Nat) : Prop where
  held : Has w (.userdata u) a n
  ress : w'.ress = Function.update w.ress a none
  number : w'.number = w.number
  next : w'.next = w.next
  mfd : ∀ th, (w'.tm.threads th).mfdRes = (w.tm.threads th).mfdRes
  resl : ∀ th, (w.number th).isSome → w'.reslOf th = (w.reslOf th).erase a
  has : ∀ v b m, Has w' (.userdata v) b m ↔ v ≠ u ∧ Has w (.userdata v) b m
  fds : ∀ fd m, m ≠ n → w.fds fd = some m → w'.fds fd = some m
  log : ∃ l, w'.log = w.log ++ l ∧ (w.log.count (.fdClose n) = 0 ∧ l = [.fdClose n, .resRecycle n]
    ∨ w.log.count (.fdClose n) = 1 ∧ l = [.resRecycle n])

namespace Closes

variable {w w' : MwWorker} {u a : Addr} {n : Nat} {freeing : Option Addr}

theorem has_iff (h : Closes w w' u a n) (o : Holder) (b : Addr) (m : Nat) :
    Has w' o b m ↔ o ≠ .userdata u ∧ Has w o b m := by
  cases o with
  | thread x =>
      rw [Has, Has, h.number, h.mfd]
      exact (and_iff_right (by simp)).symm
  | userdata v =>
      rw [h.has, ne_eq, ne_eq, Holder.userdata.injEq]

theorem res_of (h : Closes w w' u a n) {b : Addr} {r : AsThreadRes} (hr : w'.ress b = some r) :
    b ≠ a ∧ w.ress b = some r :=
  of_update_none h.ress hr

theorem res_of_ne (h : Closes w w' u a n) {b : Addr} (hb : b ≠ a) : w'.ress b = w.ress b := by
  rw [h.ress, Function.update_of_ne hb]

theorem count (h : Closes w w' u a n) {e : WorkerEvent} (hclose : e ≠ .fdClose n)
    (hrecycle : e ≠ .resRecycle n) : w'.log.count e = w.log.count e := by
  obtain ⟨l, hl, ⟨-, rfl⟩ | ⟨-, rfl⟩⟩ := h.log <;>
    simp [hl, List.count_append, hclose.symm, hrecycle.symm]

theorem number_ne (h : Closes w w' u a n) (hw : Links w w.reslOf) {b : Addr} {r : AsThreadRes}
    (hr : w'.ress b = some r) : r.number ≠ n := by
  obtain ⟨hb, hr⟩ := h.res_of hr
  exact hw.number_ne h.held hr hb

theorem closed (h : Closes w w' u a n) : w'.log.count (.fdClose n) = 1 := by
  obtain ⟨l, hl, ⟨hc, rfl⟩ | ⟨hc, rfl⟩⟩ := h.log <;>
    simp [hl, List.count_append, hc]

theorem recycled (h : Closes w w' u a n) (hw : Owner w freeing) :
    w'.log.count (.resRecycle n) = 1 := by
  obtain ⟨r, hr, rfl⟩ := hw.1.has _ a n h.held
  have hc := (hw.2.res a r hr).1
  obtain ⟨l, hl, ⟨-, rfl⟩ | ⟨-, rfl⟩⟩ := h.log <;>
    simp [hl, List.count_append, hc]

theorem links (h : Closes w w' u a n) (hw : Links w w.reslOf) : Links w' w'.reslOf := by
  have hne : ∀ o b m, Has w' o b m → b ≠ a := by
    intro o b m ho
    obtain ⟨hou, ho⟩ := (h.has_iff o b m).mp ho
    exact hw.apart h.held ho hou
  refine { hw.linkedAt.drop h.ress h.number h.next h.resl with
    mfd := ?_, own := ?_, has := ?_, sole := ?_ }
  · intro x hx
    rw [h.number] at hx
    rw [h.mfd]
    exact hw.mfd x hx
  · intro x b m r y hm hr hy
    exact hw.own x b m r y ((h.has_iff _ b m).mp hm).2 (h.res_of hr).2 hy
  · intro o b m ho
    obtain ⟨r, hr, hrm⟩ := hw.has o b m ((h.has_iff o b m).mp ho).2
    exact ⟨r, (h.res_of_ne (hne o b m ho)).trans hr, hrm⟩
  · intro o1 o2 b1 b2 m h1 h2
    exact hw.sole o1 o2 b1 b2 m ((h.has_iff o1 b1 m).mp h1).2 ((h.has_iff o2 b2 m).mp h2).2

theorem accounts (h : Closes w w' u a n) (hw : Owner w freeing) : Accounts w' freeing := by
  obtain ⟨hl, hw⟩ := hw
  obtain ⟨r0, hr0, hn0⟩ := hl.has _ a n h.held
  -- Before, the block of number `n` had not been recycled.
  have hrec : w.log.count (.resRecycle n) = 0 := hn0 ▸ (hw.res a r0 hr0).1
  have hkeep : ∀ m, m ≠ n → w'.log.count (.resRecycle m) = w.log.count (.resRecycle m)
      ∧ w'.log.count (.fdClose m) = w.log.count (.fdClose m) := fun m hm =>
    ⟨h.count nofun (by simpa using hm), h.count (by simpa using hm) nofun⟩
  have hmem : ∀ e ∈ w'.log, e ∈ w.log ∨ e = .fdClose n ∨ e = .resRecycle n := by
    obtain ⟨l, hlog, ⟨-, rfl⟩ | ⟨-, rfl⟩⟩ := h.log <;> intro e he <;>
      simp only [hlog, List.mem_append, List.mem_cons, List.not_mem_nil, or_false] at he <;> tauto
  refine ⟨?_, ?_, ?_, ?_, ?_, ?_⟩
  · intro b r hr hf
    exact h.fds _ _ (h.number_ne hl hr) (hw.opened b r (h.res_of hr).2 hf)
  · intro b r hr
    obtain ⟨hk1, hk2⟩ := hkeep r.number (h.number_ne hl hr)
    rw [hk1, hk2]
    exact hw.res b r (h.res_of hr).2
  · intro x m hm
    rw [h.number] at hm
    rw [h.count (e := .threadRecycle m) nofun nofun, h.count (e := .threadFree m) nofun nofun]
    exact hw.thread x m hm
  · intro m hm
    obtain ⟨hne, hcase⟩ := hw.threads m ((hmem _ hm).resolve_right (by simp))
    rw [h.number, h.count (e := .threadFree m) nofun nofun,
      h.count (e := .threadRecycle m) nofun nofun]
    refine ⟨hne, hcase.imp_right fun hdone => ?_⟩
    have hmn : m ≠ n := by
      rintro rfl
      rw [hrec] at hdone
      exact absurd hdone.2.2.1 (by decide)
    rwa [(hkeep m hmn).1, (hkeep m hmn).2]
  · intro m hm
    obtain ⟨hne, hcase⟩ := hw.sockets m ((hmem _ hm).resolve_right (by simp))
    refine ⟨hne, ?_⟩
    by_cases hmn : m = n
    · subst hmn
      exact .inr ⟨h.recycled ⟨hl, hw⟩, h.closed⟩
    · rw [(hkeep m hmn).1, (hkeep m hmn).2]
      refine hcase.imp_left ?_
      rintro ⟨v, b, hv⟩
      refine ⟨v, b, (h.has v b m).mpr ⟨?_, hv⟩⟩
      rintro rfl
      have heq := hv.symm.trans h.held
      simp only [Option.some.injEq, LmSocket.mk.injEq] at heq
      exact hmn heq.2.2
  · intro e he m hm
    rw [h.next]
    have hold : n < w.next := hn0 ▸ (hl.old a r0 hr0).2
    rcases hmem e he with he | rfl | rfl
    · exact hw.old e he m hm
    · rw [number_fdClose (hn0 ▸ (hl.old a r0 hr0).1), Option.some.injEq] at hm
      exact hm ▸ hold
    · cases hm
      exact hold

theorem owner (h : Closes w w' u a n) (hw : Owner w freeing) : Owner w' freeing :=
  ⟨h.links hw.1, h.accounts hw⟩

end Closes

theorem unlinkRes_eq {w : MwWorker} {a : Addr} {r : AsThreadRes} (hr : w.ress a = some r)
    (hlive : ∀ th, r.th = some th → (w.number th).isSome) :
    unlinkRes w a = .ok (match r.th with
      | none => w
      | some th => w.setThread th { w.tm.threads th with resl := (w.reslOf th).erase a }) := by
  simp only [unlinkRes, MwWorker.res_eq hr, wbind_ok]
  cases hth : r.th with
  | none => rfl
  | some th =>
      simp only [asthreadResDelFromTh, MwWorker.thread_eq (hlive th hth), wbind_ok]
      rfl

/-- `lcf_socket_close` of a socket whose resource is in use recycles that resource, whoever
else has to do with it, and leaves the userdata without one. -/
theorem lcfSocketClose_drops {w : MwWorker} (h : LinkedAt w w.reslOf) {u a : Addr} {n : Nat}
    (hu : Has w (.userdata u) a n) {r : AsThreadRes} (hr : w.ress a = some r)
    (hopen : r.freef = true → w.fds r.d = some r.number) :
    ∃ w', lcfSocketClose w u = .ok w' ∧ Drops w w' a r
      ∧ w'.socks = Function.update w.socks u (some ⟨none, .custom, n⟩) := by
  have hsock : w.socks u = some ⟨some a, .custom, n⟩ := hu
  have hlive : ∀ th, r.th = some th → (w.number th).isSome := fun th hth =>
    (h.owned a r th hr hth).1
  -- No other thread than its own has it.
  have herase : ∀ x, (w.number x).isSome → r.th ≠ some x → (w.reslOf x).erase a = w.reslOf x := by
    intro x hx hth
    refine List.erase_of_not_mem fun ha => ?_
    obtain ⟨r', hr', hx'⟩ := h.linked x a hx ha
    rw [hr, Option.some.injEq] at hr'
    exact hth (hr' ▸ hx')
  have hfreef := h.freef a r hr
  have hun := unlinkRes_eq hr hlive
  cases hth : r.th with
  | none =>
      have hf : r.freef = false := by rw [hfreef, hth]; rfl
      simp only [hth] at hun
      refine ⟨({ w with ress := Function.update w.ress a none }.note
        (.resRecycle r.number)).setSock u
          (some ⟨none, .custom, n⟩), ?_, ⟨hr, rfl, rfl, rfl, fun _ => rfl, fun x hx => ?_,
            fun _ _ _ he => he, ?_⟩, rfl⟩
      · simp only [lcfSocketClose, hsock, hun, closeRes, MwWorker.res_eq hr, hf,
          MwWorker.recycleRes,
          hr, wbind_ok, if_neg Bool.false_ne_true,
            if_neg (show SockType.custom ≠ .system by decide)]
      · exact (herase x hx (by simp [hth])).symm
      · rw [if_neg (by simp [hf])]
        rfl
  | some th =>
      have hf : r.freef = true := by rw [hfreef, hth]; rfl
      have hfd := hopen hf
      simp only [hth] at hun
      let w1 : MwWorker := w.setThread th { w.tm.threads th with resl := (w.reslOf th).erase a }
      have hr1 : w1.ress a = some r := hr
      have hfd1 : w1.fds r.d = some r.number := hfd
      let w2 : MwWorker := { w1 with fds := Function.update w1.fds r.d none,
                                     epoll := Function.update w1.epoll r.d none }.note
        (.fdClose r.number)
      have hclose : closeRes w1 a = .ok w2 := by
        simp only [closeRes, MwWorker.res_eq hr1, wbind_ok, hf, if_pos, resFreeF, MwWorker.close,
          hfd1]
        rfl
      have hr2 : w2.ress a = some r := hr
      refine ⟨({ w2 with ress := Function.update w2.ress a none }.note
        (.resRecycle r.number)).setSock u
          (some ⟨none, .custom, n⟩), ?_, ⟨hr, rfl, rfl, rfl, fun x => ?_, fun x hx => ?_,
            fun fd m hm he => ?_, ?_⟩, rfl⟩
      · simp only [lcfSocketClose, hsock, hun, wbind_ok, MwWorker.recycleRes,
          if_neg (show SockType.custom ≠ .system by decide)]
        change (closeRes w1 a >>= _) = _
        rw [hclose, wbind_ok, hr2]
        rfl
      · change (w1.tm.threads x).mfdRes = _
        by_cases hx : x = th
        · subst hx
          dsimp only [w1, MwWorker.setThread]
          rw [ThreadMem.setThread_self]
        · dsimp only [w1, MwWorker.setThread]
          rw [ThreadMem.setThread_of_ne _ _ hx]
      · change (w1.tm.threads x).resl = _
        by_cases hxth : x = th
        · subst hxth
          dsimp only [w1, MwWorker.setThread]
          rw [ThreadMem.setThread_self]
        · dsimp only [w1, MwWorker.setThread]
          rw [ThreadMem.setThread_of_ne _ _ hxth]
          refine (herase x hx fun hx' => hxth ?_).symm
          rw [hth, Option.some.injEq] at hx'
          exact hx'.symm
      · change Function.update w.fds r.d none fd = some m
        rw [Function.update_of_ne, he]
        rintro rfl
        rw [hfd, Option.some.injEq] at he
        exact hm he.symm
      · rw [if_pos hf]
        exact List.append_assoc _ _ _

theorem lcfSocketClose_closes {w : MwWorker} {freeing : Option Addr} (h : Owner w freeing)
    {u a : Addr} {n : Nat} (hu : Has w (.userdata u) a n) :
    ∃ w', lcfSocketClose w u = .ok w' ∧ Closes w w' u a n := by
  obtain ⟨r, hr, rfl⟩ := h.1.has _ a n hu
  obtain ⟨w', hrun, hd, hsocks⟩ := lcfSocketClose_drops h.1.linkedAt hu hr (h.2.opened a r hr)
  refine ⟨w', hrun, hu, hd.ress, hd.number, hd.next, hd.mfd, hd.resl, fun v b m => ?_, hd.fds, _,
    hd.log, ?_⟩
  · simp only [Has, hsocks]
    by_cases hv : v = u
    · subst hv
      simp
    · rw [Function.update_of_ne hv]
      exact (and_iff_right hv).symm
  · have hcount := (h.2.res a r hr).2
    split
    · rw [if_pos ‹_›] at hcount
      exact .inl ⟨hcount, rfl⟩
    · rw [if_neg ‹_›] at hcount
      exact .inr ⟨hcount, rfl⟩

theorem lcfSocketClose_idle {w : MwWorker} {u : Addr} (hu : ∀ a n, ¬Has w (.userdata u) a n)
    {E : WFault → Prop} (henv : E .env) : Meets (lcfSocketClose w u) (· = w) E := by
  unfold lcfSocketClose
  split
  · exact henv
  · rename_i sock hsock
    obtain ⟨res, type, n⟩ := sock
    cases res with
    | none => exact rfl
    | some a =>
        cases type with
        | system => exact rfl
        | custom => exact absurd hsock (hu a n)

/-! ## Sockets are collected -/

/-- The resources of a thread, by their numbers. -/
def MwWorker.linked (w : MwWorker) (th : Addr) : List Nat :=
  (w.reslOf th).filterMap fun a => (w.ress a).map AsThreadRes.number

/-- Every thread of `w'` was one of `w`, and its list has lost what has been recycled since
and nothing else; the others are as they were. -/
structure Thins (w w' : MwWorker) : Prop where
  log : ∀ e, w.log.count e ≤ w'.log.count e
  linked : ∀ th, (w'.number th).isSome → (w.number th).isSome
    ∧ w'.linked th = (w.linked th).filter fun m => w'.log.count (.resRecycle m) = 0

theorem Thins.trans {w w' w'' : MwWorker} (h : Thins w w') (h' : Thins w' w'') : Thins w w'' := by
  refine ⟨fun e => Nat.le_trans (h.log e) (h'.log e), ?_⟩
  intro th hth
  obtain ⟨hlive', hl'⟩ := h'.linked th hth
  obtain ⟨hlive, hl⟩ := h.linked th hlive'
  refine ⟨hlive, ?_⟩
  rw [hl', hl, List.filter_filter]
  refine List.filter_congr fun m _ => ?_
  have hle := h'.log (.resRecycle m)
  simp only [← Bool.decide_and, decide_eq_decide]
  omega

theorem Thins.of_eq {w w' : MwWorker} {freeing : Option Addr} (hw : Accounts w' freeing)
    (hlog : ∀ e, w.log.count e ≤ w'.log.count e)
    (hlinked : ∀ th, (w'.number th).isSome → (w.number th).isSome ∧ w'.linked th = w.linked th) :
    Thins w w' := by
  refine ⟨hlog, fun th hth => ⟨(hlinked th hth).1, ?_⟩⟩
  rw [(hlinked th hth).2, List.filter_eq_self.mpr]
  intro m hm
  rw [← (hlinked th hth).2] at hm
  obtain ⟨a, -, ha⟩ := List.mem_filterMap.mp hm
  obtain ⟨r, hr, rfl⟩ := Option.map_eq_some_iff.mp ha
  rw [(hw.res a r hr).1]
  rfl

theorem SameOwners.linked {w w' : MwWorker} (h : SameOwners w w') {th : Addr}
    (hn : (w.number th).isSome) : w'.linked th = w.linked th := by
  have hnum : ∀ a, (w'.ress a).map AsThreadRes.number = (w.ress a).map AsThreadRes.number := by
    intro a
    have ha := congrArg (Option.map fun o => o.2.2.2) (h.ress a)
    rwa [Option.map_map, Option.map_map] at ha
  simp only [MwWorker.linked, h.reslOf hn, hnum]

theorem Closes.thins {w w' : MwWorker} {u a : Addr} {n : Nat} (h : Closes w w' u a n)
    {freeing : Option Addr} (hw : Owner w freeing) : Thins w w' := by
  constructor
  · intro e
    obtain ⟨l, hl, -⟩ := h.log
    rw [hl, List.count_append]
    exact Nat.le_add_right _ _
  · intro th hth
    rw [h.number] at hth
    refine ⟨hth, ?_⟩
    obtain ⟨r0, hr0, rfl⟩ := hw.1.has _ a n h.held
    rw [MwWorker.linked, MwWorker.linked, h.resl th hth, (hw.1.nodup th hth).erase_eq_filter,
      List.filterMap_filter, List.filter_filterMap]
    refine List.filterMap_congr fun b hb => ?_
    obtain ⟨r, hr, -⟩ := hw.1.linked th b hth hb
    by_cases hba : b = a
    · subst hba
      simp [hr0, Option.filter, h.recycled hw]
    · have hr' : w'.ress b = some r := (h.res_of_ne hba).trans hr
      have hcount := (h.owner hw).2.res b r hr'
      simp [hba, hr, hr', Option.filter, hcount.1]

/-- What is left when sockets have been collected: no new holder, and numbers
that were unused are still. -/
structure Collects (w w' : MwWorker) : Prop where
  thins : Thins w w'
  number : w'.number = w.number
  mfd : ∀ th, (w.number th).isSome → (w'.tm.threads th).mfdRes = (w.tm.threads th).mfdRes
  has : ∀ o a n, Has w' o a n → Has w o a n
  free : ∀ a, w.ress a = none → w'.ress a = none
  unused : ∀ n, Unused w n → Unused w' n
  fds : ∀ fd n, Unused w n → w.fds fd = some n → w'.fds fd = some n

theorem Collects.trans {w w' w'' : MwWorker} (h : Collects w w') (h' : Collects w' w'') :
    Collects w w'' :=
  ⟨h.thins.trans h'.thins, h'.number.trans h.number,
    fun th hn => (h'.mfd th (h.number ▸ hn)).trans (h.mfd th hn),
    fun o a n ho => h.has o a n (h'.has o a n ho), fun a ha => h'.free a (h.free a ha),
    fun n hn => h'.unused n (h.unused n hn),
    fun fd n hn he => h'.fds fd n (h.unused n hn) (h.fds fd n hn he)⟩

theorem Closes.collects {w w' : MwWorker} {u a : Addr} {n : Nat} (h : Closes w w' u a n)
    {freeing : Option Addr} (hw : Owner w freeing) : Collects w w' := by
  have hne : ∀ m, Unused w m → m ≠ n := by
    rintro m hm rfl
    exact hm.not_has hw.1 h.held
  refine ⟨h.thins hw, h.number, fun th _ => h.mfd th, fun o b m ho => ((h.has_iff o b m).mp ho).2,
    ?_, fun m hm => ⟨hm.pos, h.next ▸ hm.old, fun b r hr => hm.res b r (h.res_of hr).2, ?_⟩,
    fun fd m hm he => h.fds fd m (hne m hm) he⟩
  · intro b hb
    by_cases hba : b = a
    · rw [h.ress, hba, Function.update_self]
    · rw [h.res_of_ne hba, hb]
  · intro e he
    have hmn := hne m hm
    obtain ⟨r0, hr0, hn0⟩ := hw.1.has _ a n h.held
    have hpos : n ≠ 0 := hn0 ▸ (hw.1.old a r0 hr0).1
    obtain ⟨l, hl, ⟨-, rfl⟩ | ⟨-, rfl⟩⟩ := h.log <;>
      simp only [hl, List.mem_append, List.mem_cons, List.not_mem_nil, or_false] at he
    · rcases he with he | rfl | rfl
      · exact hm.log e he
      · rw [number_fdClose hpos]
        simpa using hmn.symm
      · simpa [WorkerEvent.number] using hmn.symm
    · rcases he with he | rfl
      · exact hm.log e he
      · simpa [WorkerEvent.number] using hmn.symm

theorem SameOwners.collects {w w' : MwWorker} (h : SameOwners w w') {freeing : Option Addr}
    (hw : Owner w freeing) (hlog : w'.log = w.log) (hfds : w'.fds = w.fds) : Collects w w' := by
  have hthins : Thins w w' :=
    .of_eq (h.accounts hw.1 hw.2) (fun e => Nat.le_of_eq (by rw [hlog])) fun th hn =>
      ⟨h.number ▸ hn, h.linked (h.number ▸ hn)⟩
  refine ⟨hthins, h.number, fun th hn => (h.threads th hn).1, fun o a n ho => (h.has o a n).mp ho,
    ?_, ?_, fun fd n _ he => by rw [hfds, he]⟩
  · intro a ha
    have hnone := h.ress a
    rw [ha] at hnone
    exact Option.map_eq_none_iff.mp hnone
  · intro n hn
    refine ⟨hn.pos, Nat.lt_of_lt_of_le hn.old h.next, ?_, by rw [hlog]; exact hn.log⟩
    intro a r hr
    obtain ⟨r0, hr0, -, -, -, hn0⟩ := h.res_of hr
    rw [hn0]
    exact hn.res a r0 hr0

/-- Both, for the functions that may close sockets. -/
def Collected (w : MwWorker) (freeing : Option Addr) (w' : MwWorker) : Prop :=
  Owner w' freeing ∧ Collects w w'

theorem lcfSocketClose_owner {w : MwWorker} {freeing : Option Addr} (h : Owner w freeing) (u : Addr)
    {E : WFault → Prop} (henv : E .env) :
    Meets (lcfSocketClose w u) (fun w' => Collected w freeing w'
      ∧ ∀ a n, ¬Has w' (.userdata u) a n) E := by
  by_cases hu : ∃ a n, Has w (.userdata u) a n
  · obtain ⟨a, n, hu⟩ := hu
    obtain ⟨w', hrun, hc⟩ := lcfSocketClose_closes h hu
    rw [hrun]
    exact ⟨⟨hc.owner h, hc.collects h⟩, fun b m hb => ((hc.has u b m).mp hb).1 rfl⟩
  · have hnot : ∀ a n, ¬Has w (.userdata u) a n := fun a n ha => hu ⟨a, n, ha⟩
    refine (lcfSocketClose_idle hnot henv).imp fun w' hw' => ?_
    subst hw'
    exact ⟨⟨h, (SameOwners.refl w').collects h rfl rfl⟩, hnot⟩

theorem lcfSocketGc_owner {w : MwWorker} {freeing : Option Addr} (h : Owner w freeing) (u : Addr)
    {E : WFault → Prop} (henv : E .env) : Meets (lcfSocketGc w u) (Collected w freeing) E := by
  refine (lcfSocketClose_owner h u henv).bind fun w1 hw1 => ?_
  obtain ⟨⟨h1, hc1⟩, hu⟩ := hw1
  have hsame : SameOwners w1 (w1.setSock u none) := by
    refine { SameOwners.refl w1 with holds := fun v a n => ?_ }
    by_cases hv : v = u
    · subst hv
      refine iff_of_false (fun hh => ?_) (hu a n)
      simp [Has, MwWorker.setSock] at hh
    · simp only [Has, MwWorker.setSock, Function.update_of_ne hv]
  exact ⟨hsame.owner h1, hc1.trans (hsame.collects h1 rfl rfl)⟩

theorem luaCollect_owner {w : MwWorker} {freeing : Option Addr} (h : Owner w freeing) (lua : Lua)
    {E : WFault → Prop} (henv : E .env) : Meets (luaCollect lua w) (Collected w freeing) E := by
  have hsame : SameOwners w { w with turn := w.turn + 1 } := { SameOwners.refl w with }
  refine Meets.foldlM (I := fun _ => Collected w freeing) (fun u _ w1 hw1 => ?_)
    ⟨hsame.owner h, hsame.collects h rfl rfl⟩
  exact (lcfSocketGc_owner hw1.1 u henv).imp fun w2 hw2 => ⟨hw2.1, hw1.2.trans hw2.2⟩

end Artorias
