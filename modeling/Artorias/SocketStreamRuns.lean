import Artorias.SocketStream
import Mathlib.Logic.Relation

/-!
# What a script reads

`evScript_streams` is about what is read: nothing is lost, and no call is in vain.
`evScript_quiet` is about what is not: nothing, when the script waits and `epoll` has
nothing more to tell; but of the end of a connection the script may not have been
told, and then it never is.
-/

namespace Artorias

namespace EvScript

variable {ι : Type} [DecidableEq ι] {s s' : EvScript ι} {i j : ι} {c : Inbound}

omit [DecidableEq ι] in
@[simp] theorem goesTo_socks (s : EvScript ι) (pc : ScriptAt ι) : (s.goesTo pc).socks = s.socks :=
  rfl

@[simp] theorem setSock_same (s : EvScript ι) (i : ι) (c : Inbound) :
    (s.setSock i c).socks i = c := Function.update_self ..

theorem setSock_other (s : EvScript ι) (hj : j ≠ i) (c : Inbound) :
    (s.setSock i c).socks j = s.socks j := Function.update_of_ne hj ..

/-- The invariant of the script: what it knows of each connection is right, and of each it
will be told, unless it is at it or has ended. -/
structure Inv (s : EvScript ι) : Prop where
  heard : ∀ i, (s.socks i).Heard (s.busy i)
  tells : ∀ i, (s.socks i).Tells ((s.busy i).isSome ∨ s.pc = .ended)

/-- Socket `i` changes, and the script may go on with it; the other sockets are as they
were. -/
theorem Inv.moves (h : s.Inv) (hsocks : s'.socks = Function.update s.socks i c)
    (hheard : c.Heard (s'.busy i)) (htells : c.Tells ((s'.busy i).isSome ∨ s'.pc = .ended))
    (hothers : ∀ j, j ≠ i → s'.busy j = s.busy j) (hended : s.pc = .ended → s'.pc = .ended) :
    s'.Inv where
  heard j := by
    rw [hsocks]
    rcases eq_or_ne j i with rfl | hj
    · rwa [Function.update_self]
    · rw [Function.update_of_ne hj, hothers j hj]
      exact h.heard j
  tells j := by
    rw [hsocks]
    rcases eq_or_ne j i with rfl | hj
    · rwa [Function.update_self]
    · rw [Function.update_of_ne hj, hothers j hj]
      intro hin hbroken
      exact (h.tells j hin hbroken).imp_right (Or.imp_left (Or.imp_right hended))

theorem busy_waiting (hpc : s.pc = .waiting) (j : ι) : s.busy j = none := by
  rw [busy, hpc]

theorem busy_reading {a : ReadAll} (hpc : s.pc = .reading i a) (j : ι) :
    s.busy j = if i = j then some a else none := by
  rw [busy, hpc]

/-- The network is at socket `i`, and the script stays where it is. -/
theorem Inv.stays (h : s.Inv) (hheard : c.Heard (s.busy i))
    (htells : c.Tells ((s.busy i).isSome ∨ s.pc = .ended)) : (s.setSock i c).Inv :=
  h.moves rfl hheard htells (fun _ _ => rfl) id

theorem busy_over (s : EvScript ι) (goesOn : Bool) (j : ι) :
    (s.goesTo (if goesOn then .waiting else .ended)).busy j = none := by
  cases goesOn <;> rfl

theorem Inv.step (h : s.Inv) (hstep : Step s s') : s'.Inv := by
  cases hstep with
  | arrives i bytes hfin hbroken =>
      refine h.stays ?_ (Inbound.tells_of_edge fun hin => Bool.or_eq_true_iff.mpr (.inr hin))
      refine (h.heard i).grows bytes rfl rfl rfl rfl id id fun hend => ?_
      exact absurd hend (by simp [hfin, hbroken])
  | finishes i =>
      refine h.stays ?_ (Inbound.tells_of_edge fun hin => Bool.or_eq_true_iff.mpr (.inr hin))
      exact (h.heard i).grows [] (by simp [Inbound.finishes]) (by simp [Inbound.finishes])
        rfl rfl (fun _ => rfl) id fun _ => rfl
  | breaks i =>
      refine h.stays ?_ fun _ hbroken => absurd rfl hbroken
      exact (h.heard i).grows [] (by simp [Inbound.breaks]) (by simp [Inbound.breaks])
        rfl rfl id (fun _ => rfl) fun _ => rfl
  | drains i =>
      refine h.stays ?_ fun hin hbroken => (h.tells i hin hbroken).imp_left fun hedge => ?_
      · exact (h.heard i).grows [] (by simp [Inbound.drains]) (by simp [Inbound.drains])
          rfl rfl id id fun _ => rfl
      · simp [Inbound.drains, hedge]
  | skip i writable hpc hedge hnone =>
      refine h.stays ?_ (Inbound.seen_tells (.inl hnone))
      exact (h.heard i).grows [] (by simp [Inbound.seen]) (by simp [Inbound.seen])
        rfl rfl id id fun _ => rfl
  | wakes i writable hpc hedge hsome hwake =>
      have hheard := h.heard i
      rw [busy_waiting hpc] at hheard
      refine h.moves rfl ?_ (fun _ _ => .inr (.inl (.inl ?_))) (fun j hj => ?_) fun hended => ?_
      · rw [busy_reading rfl, if_pos rfl]
        exact hheard.wakes hwake
      · rw [busy_reading rfl, if_pos rfl]
        rfl
      · rw [busy_reading rfl, if_neg hj.symm, busy_waiting hpc]
      · rw [hpc] at hended
        cases hended
  | wakesOther i writable goesOn hpc hedge hsome hwake =>
      have hheard := h.heard i
      rw [busy_waiting hpc] at hheard
      refine h.moves rfl ?_ (Inbound.seen_tells (.inr hwake)) (fun j hj => ?_) fun hended => ?_
      · rw [busy_over]
        exact hheard.grows [] (by simp [Inbound.seen]) (by simp [Inbound.seen])
          rfl rfl id id fun _ => rfl
      · rw [busy_over, busy_waiting hpc]
      · rw [hpc] at hended
        cases hended
  | timeout goesOn hpc =>
      have hbusy : ∀ j, (s.goesTo (if goesOn then .waiting else .ended)).busy j = s.busy j := by
        intro j
        rw [busy_over, busy_waiting hpc]
      refine ⟨fun j => ?_, fun j hin hbroken => (h.tells j hin hbroken).imp_right ?_⟩
      · rw [hbusy]
        exact h.heard j
      · rw [hbusy, hpc]
        exact Or.imp_left fun hb => .inl (hb.resolve_right nofun)
  | @turn i a a' r c hpc hs hturn =>
      obtain ⟨fd, n, o, -, -, hread, rfl⟩ := hs
      have hheard := h.heard i
      rw [busy_reading hpc, if_pos rfl] at hheard
      refine h.moves rfl ?_ (fun _ _ => .inr (.inl (.inl ?_))) (fun j hj => ?_) fun hended => ?_
      · rw [busy_reading rfl, if_pos rfl]
        exact hheard.turn hread hturn
      · rw [busy_reading rfl, if_pos rfl]
        rfl
      · rw [busy_reading rfl, busy_reading hpc, if_neg hj.symm, if_neg hj.symm]
      · rw [hpc] at hended
        cases hended
  | @returns i a r result c goesOn hpc hs hturn =>
      obtain ⟨fd, n, o, -, -, hread, rfl⟩ := hs
      have hheard := h.heard i
      rw [busy_reading hpc, if_pos rfl] at hheard
      refine h.moves rfl ?_ (Inbound.returns_tells hread hturn) (fun j hj => ?_) fun hended => ?_
      · rw [busy_over]
        exact hheard.returns hread hturn
      · rw [busy_over, busy_reading hpc, if_neg hj.symm]
      · rw [hpc] at hended
        cases hended

theorem Reach.inv (h : Reach s) : s.Inv := by
  induction h with
  | start hpc hstart _ =>
      refine ⟨fun i => ?_, fun i => (hstart i).tells⟩
      rw [busy_waiting hpc]
      exact (hstart i).heard
  | step _ hstep ih => exact ih.step hstep

/-! ## What is read -/

/-- Of every connection exactly what has arrived is returned, in order, but for what the
script has not got yet; no result of `read_all` is empty-handed, and none is `EAGAIN`. With
`ev_rw` nothing is ever read. -/
theorem evScript_streams (h : Reach s) (i : ι) :
    (s.socks i).arrived
        = (s.socks i).returned ++ (s.busy i).elim [] ReadAll.s ++ (s.socks i).queue
      ∧ (∀ r ∈ (s.socks i).results, (s.socks i).Sound r)
      ∧ ((s.socks i).watch = evRw → (s.socks i).results = []) := by
  have hheard := (Reach.inv h).heard i
  refine ⟨hheard.bytes, hheard.sound, fun hwatch => hheard.unwatched ?_⟩
  rw [hwatch]
  decide

/-- The end of the connection has come and `epoll` has told of it, and the script is not at
it: nothing happens on this connection any more, as room to send is not waited for. -/
structure Silent (s : EvScript ι) (i : ι) : Prop where
  busy : s.busy i = none
  fin : (s.socks i).fin
  watch : ¬hasFlag (s.socks i).watch epollOut
  edge : ¬(s.socks i).edge

/-- A step that changes another socket, or of this one only what nobody looks at, keeps it
silent and adds no result: the edge of its end is gone, and nothing more can come that would
set it again. -/
theorem Silent.stays (h : s.Silent i) {c : Inbound} (pc : ScriptAt ι)
    (hc : j = i → c.fin ∧ c.watch = (s.socks i).watch ∧ ¬c.edge
      ∧ c.results = (s.socks i).results)
    (hbusy : ((s.setSock j c).goesTo pc).busy i = none) :
    ((s.setSock j c).goesTo pc).Silent i
      ∧ (((s.setSock j c).goesTo pc).socks i).results = (s.socks i).results := by
  rcases eq_or_ne i j with rfl | hij
  · obtain ⟨hfin, hwatch, hedge, hresults⟩ := hc rfl
    refine ⟨⟨hbusy, ?_, ?_, ?_⟩, ?_⟩ <;> rw [goesTo_socks, setSock_same]
    · exact hfin
    · rw [hwatch]
      exact h.watch
    · exact hedge
    · exact hresults
  · refine ⟨⟨hbusy, ?_, ?_, ?_⟩, ?_⟩ <;> rw [goesTo_socks, setSock_other s hij]
    · exact h.fin
    · exact h.watch
    · exact h.edge

theorem Silent.step (h : s.Silent i) (hstep : Step s s') : (s'.socks i).broken
    ∨ (s'.Silent i ∧ (s'.socks i).results = (s.socks i).results) := by
  have hother : ∀ {j : ι} {a : ReadAll}, s.pc = .reading j a → j ≠ i := by
    rintro j a hpc rfl
    have hbusy := h.busy
    rw [busy_reading hpc, if_pos rfl] at hbusy
    cases hbusy
  cases hstep with
  | arrives j bytes hfin =>
      refine .inr (h.stays s.pc ?_ h.busy)
      rintro rfl
      exact absurd h.fin hfin
  | finishes j hfin =>
      refine .inr (h.stays s.pc ?_ h.busy)
      rintro rfl
      exact absurd h.fin hfin
  | breaks j =>
      rcases eq_or_ne j i with rfl | hji
      · left
        rw [setSock_same]
        rfl
      · exact .inr (h.stays s.pc (fun hj => absurd hj hji) h.busy)
  | drains j =>
      refine .inr (h.stays s.pc ?_ h.busy)
      rintro rfl
      refine ⟨h.fin, rfl, fun hedge => ?_, rfl⟩
      rcases Bool.or_eq_true_iff.mp hedge with hedge | hout
      · exact h.edge hedge
      · exact h.watch hout
  | skip j writable hpc hedge =>
      refine .inr (h.stays s.pc ?_ h.busy)
      rintro rfl
      exact absurd hedge h.edge
  | wakes j writable hpc hedge =>
      have hji : j ≠ i := by
        rintro rfl
        exact h.edge hedge
      refine .inr (h.stays _ (fun hj => absurd hj hji) ?_)
      rw [busy_reading rfl, if_neg hji]
  | wakesOther j writable goesOn hpc hedge =>
      refine .inr (h.stays _ ?_ (busy_over _ _ _))
      rintro rfl
      exact absurd hedge h.edge
  | timeout goesOn hpc => exact .inr ⟨⟨busy_over _ _ _, h.fin, h.watch, h.edge⟩, rfl⟩
  | turn hpc =>
      refine .inr (h.stays _ (fun hj => absurd hj (hother hpc)) ?_)
      rw [busy_reading rfl, if_neg (hother hpc)]
  | returns goesOn hpc =>
      exact .inr (h.stays _ (fun hj => absurd hj (hother hpc)) (busy_over _ _ _))

theorem broken_stays (h : (s.socks i).broken) (hstep : Step s s') : (s'.socks i).broken := by
  have hstays : ∀ {j : ι} {c : Inbound} (pc : ScriptAt ι), (j = i → c.broken) →
      (((s.setSock j c).goesTo pc).socks i).broken := by
    intro j c pc hc
    rw [goesTo_socks]
    rcases eq_or_ne i j with rfl | hij
    · rw [setSock_same]
      exact hc rfl
    · rwa [setSock_other s hij]
  cases hstep with
  | arrives | finishes | drains | skip => exact hstays s.pc (by rintro rfl; exact h)
  | breaks => exact hstays s.pc fun _ => rfl
  | wakes | wakesOther => exact hstays _ (by rintro rfl; exact h)
  | timeout => exact h
  | turn _ hs | returns _ _ hs =>
      obtain ⟨fd, n, o, -, -, hread, rfl⟩ := hs
      refine hstays _ ?_
      rintro rfl
      cases hread <;> exact h

/-- The script waits, and `epoll` has nothing to tell of a connection that is watched for
input and not broken: all that has come has been returned. If the end has come too, then
whatever the script has heard of it in its last result is all: a `read_all` that has read
something before the end does not say that it was the end, and, if room to send is not
waited for, nobody ever will. -/
theorem evScript_quiet (h : Reach s) (hpc : s.pc = .waiting) (hedge : ¬(s.socks i).edge)
    (hbroken : ¬(s.socks i).broken) (hin : hasFlag (s.socks i).watch epollIn) :
    (s.socks i).queue = [] ∧ (s.socks i).arrived = (s.socks i).returned
      ∧ ((s.socks i).fin → (s.socks i).results ≠ []
        ∧ (¬hasFlag (s.socks i).watch epollOut → ∀ s', Relation.ReflTransGen Step s s' →
          (s'.socks i).broken ∨ (s'.socks i).results = (s.socks i).results)) := by
  have hinv := Reach.inv h
  have hbusy := busy_waiting hpc i
  have htells : (s.socks i).queue = [] ∧ ((s.socks i).fin → (s.socks i).results ≠ []) := by
    rcases hinv.tells i hin hbroken with he | (hb | he) | hq
    · exact absurd he hedge
    · rw [hbusy] at hb
      cases hb
    · rw [hpc] at he
      cases he
    · exact hq
  refine ⟨htells.1, ?_, fun hfin => ⟨htells.2 hfin, fun hout s' hrun => ?_⟩⟩
  · have hbytes := (hinv.heard i).bytes
    rwa [hbusy, htells.1, List.append_nil, Option.elim_none, List.append_nil] at hbytes
  · have hsilent : (s'.socks i).broken
        ∨ (s'.Silent i ∧ (s'.socks i).results = (s.socks i).results) := by
      induction hrun with
      | refl => exact .inr ⟨⟨hbusy, hfin, hout, hedge⟩, rfl⟩
      | tail _ hstep ih =>
          rcases ih with hb | ⟨hsilent, hresults⟩
          · exact .inl (broken_stays hb hstep)
          · exact (hsilent.step hstep).imp_right fun h => ⟨h.1, h.2.trans hresults⟩
    exact hsilent.imp_right And.right

/-! ## A byte, and the end -/

/-- The socket 30, whose resource is 20 and whose descriptor is 4. -/
def oneSocket : SendMem where
  socks u := if u = 30 then some 20 else none
  ress a := if a = 20 then some ⟨4, some .loopSocks⟩ else none
  ctxs _ := none
  recycled := []
  sent _ := []

/-- The peer has sent a byte and closed before `ev_begin`. -/
def lastByte : EvScript Unit :=
  ⟨.waiting, fun _ => ⟨evR, [7], true, false, true, [7], []⟩, oneSocket, fun _ => 30⟩

/-- The script has read the byte, and waits. -/
theorem lastByte_read : ∃ s, Reach s ∧ s.pc = .waiting ∧ s.socks ()
    = ⟨evR, [], true, false, false, [7], [⟨1, [7], none⟩]⟩ := by
  have h0 : Reach lastByte := .start rfl (fun _ => ⟨rfl, rfl, fun _ _ => rfl⟩) fun _ => rfl
  have h1 := h0.step (.wakes () false rfl rfl (by decide) (by decide))
  have hgot : ∀ s : EvScript Unit, s.mem = oneSocket → s.sock () = 30 →
      (s.socks ()).queue = [7] → s.Sreads () ⟨1, some [7], none⟩ ((s.socks ()).takes []) := by
    intro s hmem hsock hqueue
    refine (sreads_iff (show _ = some 4 by rw [hmem, hsock]; rfl)).mpr ⟨.got [7], ?_, rfl⟩
    exact .got (hqueue.trans (List.append_nil [7]).symm) (by decide) (by decide)
  have hend : ∀ s : EvScript Unit, s.mem = oneSocket → s.sock () = 30 →
      (s.socks ()).queue = [] → (s.socks ()).fin = true →
      s.Sreads () ⟨0, some [], none⟩ (s.socks ()) := by
    intro s hmem hsock hqueue hfin
    refine (sreads_iff (show _ = some 4 by rw [hmem, hsock]; rfl)).mpr ⟨.got [], ?_, rfl⟩
    exact .eof hqueue (by rw [hfin]; rfl)
  have h2 := h1.step (.turn rfl (hgot _ rfl rfl rfl) rfl)
  have h3 := h2.step (.returns true rfl (hend _ rfl rfl rfl rfl) rfl)
  exact ⟨_, h3, rfl, rfl⟩

theorem evScript_streams_one : ∃ s : EvScript Unit, Reach s
    ∧ (s.socks ()).results = [⟨1, [7], none⟩] ∧ (s.socks ()).Sound ⟨1, [7], none⟩ := by
  obtain ⟨s, h, -, hsock⟩ := lastByte_read
  have hresults : (s.socks ()).results = [⟨1, [7], none⟩] := by rw [hsock]
  refine ⟨s, h, hresults, (evScript_streams h ()).2.1 _ ?_⟩
  rw [hresults]
  exact List.mem_singleton_self _

/-- The script that has read the last byte is never told that the peer has closed. -/
theorem evScript_quiet_end : ∃ s : EvScript Unit, Reach s ∧ (s.socks ()).fin
    ∧ ∀ s', Relation.ReflTransGen Step s s' →
      (s'.socks ()).broken ∨ (s'.socks ()).results = [⟨1, [7], none⟩] := by
  obtain ⟨s, h, hpc, hsock⟩ := lastByte_read
  have hquiet := evScript_quiet h hpc (i := ()) (by rw [hsock]; decide) (by rw [hsock]; decide)
    (by rw [hsock]; decide)
  have hfin : (s.socks ()).fin := by rw [hsock]
  refine ⟨s, h, hfin, fun s' hs' => ?_⟩
  have hlater := (hquiet.2.2 hfin).2 (by rw [hsock]; decide) s' hs'
  rwa [hsock] at hlater

end EvScript

end Artorias
