import Artorias.WorkerPasses
import Artorias.WorkerPools

/-!
# Turns of the loop

`process` takes turns, and how far they keep what the handlers keep depends on
what each meets: `TurnsOk` says that every event finds its resource in use, and
that no pass leaves a due thread behind one that is not. After such turns no
live thread is marked as stopped (`Between`); the ones in `stop_threads` have
been freed, and stay in it until the next turn.
-/

namespace Artorias

/-! ## What a turn meets -/

/-- The event is for the descriptor to accept from, and that is open, or for a
resource that has not been closed meanwhile. -/
def EventOk (w : MwWorker) (e : EpollEvent) : Prop :=
  if e.ptr = w.cfdRes then w.fds w.cfd = some 0 else Attached w e.ptr

def EventsOk (lua : Lua) : List EpollEvent → MwWorker → Prop
  | [], _ => True
  | e :: es, w => EventOk w e
      ∧ ∀ w', Settles (fun k => dispatch lua k w e) (.ok w') → EventsOk lua es w'

def TurnOk (lua : Lua) (w : MwWorker) (t : Turn) : Prop :=
  let w := { w with stopThreads := [] }
  EventsOk lua t.events w
    ∧ ∀ w1, Settles (fun k => processIo lua k w t.events) (.ok w1) → DueOk w1 ioPool t.nowIo
      ∧ ∀ w2, Settles (fun k => processIoTimeout lua k w1 t.nowIo) (.ok w2) →
        DueOk w2 sleepPool t.nowSleep

def TurnsOk (lua : Lua) : List Turn → MwWorker → Prop
  | [], _ => True
  | t :: ts, w => TurnOk lua w t
      ∧ ∀ w', Settles (fun k => turnBody lua k w t) (.ok w') → TurnsOk lua ts w'

/-- The state between two turns. -/
structure Between (J : MwWorker → Prop) (w : MwWorker) : Prop where
  settled : Settled J { w with stopThreads := [] }
  freed : ∀ th ∈ w.stopThreads, w.number th = none

/-! ## What a turn keeps -/

section

variable {lua : Lua} {J : MwWorker → Prop} {E : WFault → Prop} {w : MwWorker}

theorem dispatch_flow (hJ : Upholds lua J E)
    (hclose : ∀ {w}, w.fds w.cfd = some 0 → J w → J (w.close w.cfd)) (h : Settled J w)
    {e : EpollEvent} (he : EventOk w e) : Ensures (fun k => dispatch lua k w e) (Settled J) E := by
  have hfd : e.ptr ≠ w.cfdRes →
      ∀ args, Ensures (fun k => handleFd lua k w e.ptr args) (Settled J) E := by
    intro hne args
    rw [EventOk, if_neg hne] at he
    obtain ⟨r, th, hres, hr, hnum⟩ := he
    exact handleFd_flow hJ h hres hr hnum args
  refine .ite (fun _ => .ite (fun hcfd => .pure ?_) fun hne => hfd hne _) fun _ =>
    .ite (fun _ => handleAccept_flow hJ h e.conns) fun hne =>
    .ite (fun _ => hfd hne _) fun _ => .ite (fun _ => hfd hne _) fun _ => .pure h
  obtain ⟨⟨members, hsched⟩, hw⟩ := h
  rw [EventOk, if_pos hcfd] at he
  exact ⟨⟨members, hsched.congr (close_same w w.cfd)⟩, hclose he hw⟩

theorem processIo_flow (hJ : Upholds lua J E)
    (hclose : ∀ {w}, w.fds w.cfd = some 0 → J w → J (w.close w.cfd)) (h : Settled J w)
    {events : List EpollEvent} (he : EventsOk lua events w) :
    Ensures (fun k => processIo lua k w events) (Settled J) E := by
  refine Ensures.imp (Ensures.foldlM (I := fun es w => EventsOk lua es w ∧ Settled J w)
    (fun e es w1 h1 => ?_) ⟨he, h⟩) fun _ h' => h'.2
  obtain ⟨⟨he1, hrest⟩, h1⟩ := h1
  exact (dispatch_flow hJ hclose h1 he1).self.imp fun w2 h2 => ⟨hrest w2 h2.2, h2.1⟩

/-- Whoever is still in `stop_threads` after `process_stop_threads` has been freed by it:
the function does not reset the array. -/
theorem processStopThreads_freed (lua : Lua) (w : MwWorker) :
    Meets (processStopThreads lua w) (fun w' => ∀ th ∈ w'.stopThreads, w'.number th = none)
      LocalFault := by
  refine Meets.imp (Meets.foldlM (I := fun rest w' => w'.stopThreads = w.stopThreads
      ∧ ∀ th ∈ w.stopThreads, th ∉ rest → w'.number th = none)
    (fun th rest w1 h1 => ?_) ⟨rfl, fun _ hth hno => absurd hth hno⟩) fun w' h' th hth => ?_
  · refine (releaseThread_freed lua w1 th).imp fun w2 h2 => ?_
    refine ⟨h2.same.stopThreads.trans h1.1, ?_⟩
    intro x hx hno
    rw [h2.number]
    by_cases hxth : x = th
    · subst hxth
      exact Function.update_self ..
    · rw [Function.update_of_ne hxth]
      exact h1.2 x hx fun hm => (List.mem_cons.mp hm).elim hxth hno
  · exact h'.2 th (h'.1 ▸ hth) List.not_mem_nil

theorem turnBody_flow (hJ : Upholds lua J E)
    (hclose : ∀ {w}, w.fds w.cfd = some 0 → J w → J (w.close w.cfd)) (h : Between J w) {t : Turn}
    (ht : TurnOk lua w t) : Ensures (fun k => turnBody lua k w t) (Between J) E := by
  obtain ⟨hevents, hpasses⟩ := ht
  refine (processIo_flow hJ hclose h.settled hevents).self.bind fun w1 h1 => ?_
  obtain ⟨hio, hrest⟩ := hpasses w1 h1.2
  refine (processIoTimeout_flow hJ h1.1 hio).self.bind fun w2 h2 => ?_
  refine (processSleep_flow hJ h2.1 (hrest w2 h2.2)).bind fun w3 h3 => .meets ?_
  exact ((processStopThreads_flow hJ h3).and (processStopThreads_freed lua w3)).imp
    fun w4 h4 => ⟨h4.1, h4.2⟩

/-- Any number of turns keep what one turn keeps, for any `J` that the handlers uphold. -/
theorem turns_flow (hJ : Upholds lua J E)
    (hclose : ∀ {w}, w.fds w.cfd = some 0 → J w → J (w.close w.cfd)) (h : Between J w)
    {turns : List Turn} (ht : TurnsOk lua turns w) :
    Ensures (fun k => turns.foldlM (turnBody lua k) w) (Between J) E := by
  refine Ensures.imp (Ensures.foldlM (I := fun ts w => TurnsOk lua ts w ∧ Between J w)
    (fun t ts w1 h1 => ?_) ⟨ht, h⟩) fun _ h' => h'.2
  obtain ⟨⟨ht1, hrest⟩, h1⟩ := h1
  exact (turnBody_flow hJ hclose h1 ht1).self.imp fun w2 h2 => ⟨hrest w2 h2.2, h2.1⟩

end

end Artorias
