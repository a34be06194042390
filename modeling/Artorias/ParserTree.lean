import Artorias.RespReader

/-!
# Value trees in the parser's heap

`Denotes mem r v`: the complete command at `r` is the value `v`. All nodes of
it have status `END`, and the parser writes to no such node, so a value that is
complete stays (`Denotes.kept`).

`Holds ps z`: the parser `ps` is where the reader `z` is. Below the top of the
stack lie, for each array under way, the elements it waits for and then the
array itself. `popStacks_holds`: `popStacks` is the reader's `close`.
-/

namespace Artorias

/-! ## Complete values -/

mutual

def Denotes (mem : Ref → RedisCommand) (r : Ref) : Resp → Prop
  | .status t => mem r = ⟨.status, ⟨0, some t, []⟩, .end⟩
  | .error t => mem r = ⟨.error, ⟨0, some t, []⟩, .end⟩
  | .int i => mem r = ⟨.int, ⟨i, none, []⟩, .end⟩
  | .bulk p => mem r = ⟨.bulk, ⟨0, p, []⟩, .end⟩
  | .array vs => ∃ rs, mem r = ⟨.mulit, ⟨0, none, rs⟩, .end⟩ ∧ DenotesAll mem rs vs
  | .unknown t => mem r = ⟨.unknown, ⟨0, some t, []⟩, .end⟩

def DenotesAll (mem : Ref → RedisCommand) (rs : List Ref) : List Resp → Prop
  | [] => rs = []
  | v :: vs => ∃ r rs', rs = r :: rs' ∧ Denotes mem r v ∧ DenotesAll mem rs' vs

end

/-- Complete commands are as they were. -/
def EndKept (mem mem' : Ref → RedisCommand) : Prop :=
  ∀ r, (mem r).status = .end → mem' r = mem r

theorem EndKept.refl (mem : Ref → RedisCommand) : EndKept mem mem := fun _ _ => rfl

theorem EndKept.trans {mem mem' mem'' : Ref → RedisCommand} (h : EndKept mem mem')
    (h' : EndKept mem' mem'') : EndKept mem mem'' := fun r hr => by
  rw [h' r (by rw [h r hr, hr]), h r hr]

theorem endKept_update {mem : Ref → RedisCommand} {c : Ref} (h : (mem c).status ≠ .end)
    (x : RedisCommand) : EndKept mem (Function.update mem c x) := by
  intro r hr
  have hne : r ≠ c := fun he => h (he ▸ hr)
  exact Function.update_of_ne hne x mem

/-- The type of the command that holds the value. -/
def Resp.rcType : Resp → RcType
  | .status _ => .status
  | .error _ => .error
  | .int _ => .int
  | .bulk _ => .bulk
  | .array _ => .mulit
  | .unknown _ => .unknown

theorem Denotes.node {mem : Ref → RedisCommand} {r : Ref} {v : Resp} (h : Denotes mem r v) :
    (mem r).status = .end ∧ (mem r).type = v.rcType := by
  cases v with
  | array vs =>
      obtain ⟨rs, hr, -⟩ := h
      rw [hr]
      exact ⟨rfl, rfl⟩
  | _ =>
      rw [Denotes] at h
      rw [h]
      exact ⟨rfl, rfl⟩

theorem Denotes.status_end {mem : Ref → RedisCommand} {r : Ref} {v : Resp}
    (h : Denotes mem r v) : (mem r).status = .end := h.node.1

theorem Denotes.type {mem : Ref → RedisCommand} {r : Ref} {v : Resp}
    (h : Denotes mem r v) : (mem r).type = v.rcType := h.node.2

mutual

theorem Denotes.kept {mem mem' : Ref → RedisCommand} (hkept : EndKept mem mem') :
    ∀ {v : Resp} {r : Ref}, Denotes mem r v → Denotes mem' r v
  | .status _, _, h => (hkept _ h.status_end).trans h
  | .error _, _, h => (hkept _ h.status_end).trans h
  | .int _, _, h => (hkept _ h.status_end).trans h
  | .bulk _, _, h => (hkept _ h.status_end).trans h
  | .unknown _, _, h => (hkept _ h.status_end).trans h
  | .array _, _, h => by
      have hend := h.status_end
      obtain ⟨rs, hr, hrs⟩ := h
      exact ⟨rs, (hkept _ hend).trans hr, hrs.kept hkept⟩

theorem DenotesAll.kept {mem mem' : Ref → RedisCommand} (hkept : EndKept mem mem') :
    ∀ {vs : List Resp} {rs : List Ref}, DenotesAll mem rs vs → DenotesAll mem' rs vs
  | [], _, h => h
  | _ :: _, _, ⟨r, rs', hrs, hv, hvs⟩ => ⟨r, rs', hrs, hv.kept hkept, hvs.kept hkept⟩

end

mutual

/-- A command holds one value only: the type and the fields of each command on the way
determine it. -/
theorem Denotes.unique {mem : Ref → RedisCommand} :
    ∀ {v w : Resp} {r : Ref}, Denotes mem r v → Denotes mem r w → v = w
  | .status _, w, _, h, h' => by
      have htype := h.type.symm.trans h'.type
      cases w with
      | status _ => simpa using h.symm.trans h'
      | _ => cases htype
  | .error _, w, _, h, h' => by
      have htype := h.type.symm.trans h'.type
      cases w with
      | error _ => simpa using h.symm.trans h'
      | _ => cases htype
  | .int _, w, _, h, h' => by
      have htype := h.type.symm.trans h'.type
      cases w with
      | int _ => simpa using h.symm.trans h'
      | _ => cases htype
  | .bulk _, w, _, h, h' => by
      have htype := h.type.symm.trans h'.type
      cases w with
      | bulk _ => simpa using h.symm.trans h'
      | _ => cases htype
  | .unknown _, w, _, h, h' => by
      have htype := h.type.symm.trans h'.type
      cases w with
      | unknown _ => simpa using h.symm.trans h'
      | _ => cases htype
  | .array _, w, _, h, h' => by
      have htype := h.type.symm.trans h'.type
      cases w with
      | array _ =>
          obtain ⟨rs, hr, hrs⟩ := h
          obtain ⟨rs', hr', hrs'⟩ := h'
          obtain rfl : rs = rs' := by simpa using hr.symm.trans hr'
          rw [hrs.unique hrs']
      | _ => cases htype

theorem DenotesAll.unique {mem : Ref → RedisCommand} :
    ∀ {vs ws : List Resp} {rs : List Ref}, DenotesAll mem rs vs → DenotesAll mem rs ws → vs = ws
  | [], [], _, _, _ => rfl
  | [], _ :: _, _, h, ⟨_, _, hrs, _⟩ => by
      rw [h] at hrs
      cases hrs
  | _ :: _, [], _, ⟨_, _, hrs, _⟩, h' => by
      rw [h'] at hrs
      cases hrs
  | _ :: _, _ :: _, _, ⟨_, _, hrs, hv, hvs⟩, ⟨_, _, hrs', hw, hws⟩ => by
      rw [hrs] at hrs'
      cases hrs'
      rw [hv.unique hw, hvs.unique hws]

end

theorem DenotesAll.snoc {mem : Ref → RedisCommand} {r : Ref} {v : Resp} (hv : Denotes mem r v) :
    ∀ {vs : List Resp} {rs : List Ref}, DenotesAll mem rs vs →
      DenotesAll mem (rs ++ [r]) (vs ++ [v])
  | [], _, h => ⟨r, [], by rw [h]; rfl, hv, rfl⟩
  | _ :: _, _, ⟨q, rs', hrs, hw, hws⟩ => ⟨q, rs' ++ [r], by rw [hrs]; rfl, hw, hws.snoc hv⟩

/-! ## The stack -/

/-- `c` is being read inside the arrays `cs`; `below` is what is under it on
the stack. -/
inductive CtxsAt (mem : Ref → RedisCommand) (root : Ref) :
    List Ctx → Ref → List Ref → Prop where
  | nil : CtxsAt mem root [] root []
  | cons {cs : List Ctx} {ds : List Resp} {c p : Ref} {rs qs below : List Ref} :
      mem p = ⟨.mulit, ⟨0, none, rs ++ c :: qs⟩, .mulit⟩ → DenotesAll mem rs ds →
      (∀ q ∈ qs, mem q = newRedisCommand) → CtxsAt mem root cs p below →
      CtxsAt mem root (⟨ds, qs.length⟩ :: cs) c (qs ++ p :: below)

theorem CtxsAt.kept {mem mem' : Ref → RedisCommand} {root c : Ref} {cs : List Ctx}
    {below : List Ref} (h : CtxsAt mem root cs c below) (hkept : EndKept mem mem')
    (hbelow : ∀ q ∈ below, mem' q = mem q) : CtxsAt mem' root cs c below := by
  induction h with
  | nil => exact .nil
  | cons hp hds hqs _ ih =>
      refine .cons ?_ (hds.kept hkept) (fun q hq => ?_) (ih fun q hq => hbelow q (by simp [hq]))
      · rw [hbelow _ (by simp), hp]
      · rw [hbelow q (by simp [hq]), hqs q hq]

structure StackAt (ps : Parser) (cs : List Ctx) (c : Ref) (below : List Ref) : Prop where
  stack : ps.stack = (c :: below).reverse
  nodup : (c :: below).Nodup
  made : ∀ r ∈ c :: below, r < ps.next
  unmade : ∀ r, ps.next ≤ r → ps.commands r = newRedisCommand
  ctxs : CtxsAt ps.commands ps.redisCommand cs c below

def FocusAt (ps : Parser) (c : Ref) : Focus → Prop
  | .start => ps.commands c = newRedisCommand
  | .line ty text =>
      ps.commands c = ⟨ty, newRedisCommandValue, .unitlCrlf⟩ ∧ ps.buffer = text
  | .payload n text =>
      ps.commands c = ⟨.bulk, newRedisCommandValue, .fixedLen⟩ ∧ ps.buffer = text ∧ ps.argLen = n
  | .dead => ps.commands c = ⟨.mulit, newRedisCommandValue, .mulit⟩

def Holds (ps : Parser) : Reader → Prop
  | .reading cs f => ∃ c below, StackAt ps cs c below ∧ FocusAt ps c f
  | .done v => ps.stack = [] ∧ Denotes ps.commands ps.redisCommand v
  | .rejected => ps.stack = [] ∧ (ps.commands ps.redisCommand).status = .error

/-! ## Assignments -/

namespace Parser

@[simp] theorem set_commands (ps : Parser) (rc : Ref) (c : RedisCommand) :
    (ps.set rc c).commands = Function.update ps.commands rc c := rfl

@[simp] theorem set_stack (ps : Parser) (rc : Ref) (c : RedisCommand) :
    (ps.set rc c).stack = ps.stack := rfl

@[simp] theorem set_buffer (ps : Parser) (rc : Ref) (c : RedisCommand) :
    (ps.set rc c).buffer = ps.buffer := rfl

@[simp] theorem set_argLen (ps : Parser) (rc : Ref) (c : RedisCommand) :
    (ps.set rc c).argLen = ps.argLen := rfl

@[simp] theorem set_redisCommand (ps : Parser) (rc : Ref) (c : RedisCommand) :
    (ps.set rc c).redisCommand = ps.redisCommand := rfl

@[simp] theorem set_set (ps : Parser) (rc : Ref) (c d : RedisCommand) :
    (ps.set rc c).set rc d = ps.set rc d := by
  simp [set]

end Parser

section

variable {ps : Parser} {cs : List Ctx} {c : Ref} {below : List Ref} {x : RedisCommand}

theorem StackAt.of_eq {ps' : Parser} (h : StackAt ps cs c below)
    (hmem : ps'.commands = ps.commands) (hnext : ps'.next = ps.next)
    (hstack : ps'.stack = ps.stack) (hroot : ps'.redisCommand = ps.redisCommand) :
    StackAt ps' cs c below where
  stack := hstack.trans h.stack
  nodup := h.nodup
  made := by
    rw [hnext]
    exact h.made
  unmade := by
    rw [hnext, hmem]
    exact h.unmade
  ctxs := by
    rw [hmem, hroot]
    exact h.ctxs

/-- The frame on top may change while it is not complete, since no array below it has read
it yet. -/
theorem StackAt.set (h : StackAt ps cs c below) (hc : (ps.commands c).status ≠ .end)
    (x : RedisCommand) : StackAt (ps.set c x) cs c below where
  stack := h.stack
  nodup := h.nodup
  made := h.made
  unmade := fun r hr => by
    have hne : r ≠ c :=
      fun he => Nat.lt_irrefl _ (Nat.lt_of_lt_of_le (h.made c (by simp)) (he ▸ hr))
    rw [Parser.set_commands, Function.update_of_ne hne]
    exact h.unmade r hr
  ctxs := h.ctxs.kept (endKept_update hc x) fun q hq => by
    have hne : q ≠ c := fun he => (List.nodup_cons.mp h.nodup).1 (he ▸ hq)
    exact Function.update_of_ne hne x ps.commands

end

/-! ## `popStacks` -/

@[simp] theorem goBind_ok {α β : Type} (a : α) (f : α → GoRun β) :
    ((Except.ok a : GoRun α) >>= f) = f a := rfl

@[simp] theorem goBind_error {α β : Type} (e : GoPanic) (f : α → GoRun β) :
    ((Except.error e : GoRun α) >>= f) = .error e := rfl

theorem goIndex_concat {α : Type} (xs : List α) (x : α) (ys : List α) :
    goIndex (xs ++ x :: ys) xs.length = .ok x := by
  simp [goIndex]

theorem goSliceTo_append {α : Type} (xs ys : List α) :
    goSliceTo (xs ++ ys) xs.length = .ok xs := by
  rw [goSliceTo, if_pos (by rw [List.length_append]; omega)]
  simp

theorem popStacksLoop_end {ps : Parser} {c : Ref} {below : List Ref}
    (hstack : ps.stack = below.reverse ++ [c]) (hc : (ps.commands c).status = .end) :
    popStacksLoop (below.length + 1) ps =
      popStacksLoop below.length { ps with stack := below.reverse } := by
  have htop := goIndex_concat below.reverse c []
  have hpop := goSliceTo_append below.reverse [c]
  rw [List.length_reverse] at htop hpop
  rw [popStacksLoop, hstack, htop, goBind_ok]
  simp only [hc, hpop, goBind_ok]

theorem popStacksLoop_mulit {ps : Parser} {c : Ref} {below : List Ref}
    (hstack : ps.stack = below.reverse ++ [c]) (hc : (ps.commands c).status = .mulit) :
    popStacksLoop (below.length + 1) ps =
      popStacksLoop below.length { ps.setStatus c .end with stack := below.reverse } := by
  have htop := goIndex_concat below.reverse c []
  have hpop := goSliceTo_append below.reverse [c]
  rw [List.length_reverse] at htop hpop
  rw [popStacksLoop, hstack, htop, goBind_ok]
  simp only [hc, Parser.setStatus, Parser.set_stack, hstack, hpop, goBind_ok]

theorem popStacksLoop_start {ps : Parser} {c : Ref} {below : List Ref}
    (hstack : ps.stack = below.reverse ++ [c]) (hc : (ps.commands c).status = .start) :
    popStacksLoop (below.length + 1) ps = .ok ps := by
  have htop := goIndex_concat below.reverse c []
  rw [List.length_reverse] at htop
  rw [popStacksLoop, hstack, htop, goBind_ok]
  simp only [hc]

/-- The loop of `popStacks` once `c` is off the stack: the arrays whose last element it is
are popped with it, each complete by then. -/
theorem popStacksLoop_holds {ps : Parser} {cs : List Ctx} {c : Ref} {below : List Ref} {v : Resp}
    (hstack : ps.stack = below.reverse) (hnodup : below.Nodup) (hmade : ∀ r ∈ below, r < ps.next)
    (hunmade : ∀ r, ps.next ≤ r → ps.commands r = newRedisCommand)
    (hctxs : CtxsAt ps.commands ps.redisCommand cs c below) (hv : Denotes ps.commands c v) :
    ∃ ps', popStacksLoop below.length ps = .ok ps' ∧ Holds ps' (Reader.close cs v) ∧
      EndKept ps.commands ps'.commands := by
  induction cs generalizing ps c below v with
  | nil =>
      cases hctxs
      exact ⟨ps, rfl, ⟨hstack, hv⟩, .refl _⟩
  | cons ctx cs ih =>
      cases hctxs with
      | @cons _ ds _ p rs qs below hp hds hqs hctxs =>
          cases qs with
          | nil =>
              -- `p` has its last element
              rw [List.nil_append] at hstack hnodup hmade
              rw [List.reverse_cons] at hstack
              obtain ⟨hpbelow, hnodup⟩ := List.nodup_cons.mp hnodup
              have hpmade := hmade p (by simp)
              have hkept : EndKept ps.commands (ps.setStatus p .end).commands :=
                endKept_update (by rw [hp]; simp) _
              have hpv : Denotes (ps.setStatus p .end).commands p (.array (ds ++ [v])) := by
                refine ⟨rs ++ [c], ?_, (hds.kept hkept).snoc (hv.kept hkept)⟩
                simp [Parser.setStatus, hp]
              have hsame : ∀ q, q ≠ p → (ps.setStatus p .end).commands q = ps.commands q :=
                fun q hq => Function.update_of_ne hq _ _
              obtain ⟨ps', hloop, hholds, hkept'⟩ :=
                @ih { ps.setStatus p .end with stack := below.reverse } p below
                  (.array (ds ++ [v])) rfl hnodup (fun r hr => hmade r (by simp [hr]))
                  (fun r hr => (hsame r fun he => by subst he; exact Nat.not_lt.mpr hr hpmade).trans
                    (hunmade r hr))
                  (hctxs.kept hkept fun q hq => hsame q fun he => hpbelow (he ▸ hq)) hpv
              refine ⟨ps', ?_, hholds, hkept.trans hkept'⟩
              rw [List.nil_append, List.length_cons,
                popStacksLoop_mulit hstack (by rw [hp])]
              exact hloop
          | cons q qs =>
              -- the next element is on top
              rw [List.cons_append] at hstack hnodup hmade
              have hq := hqs q (by simp)
              rw [List.reverse_cons] at hstack
              refine ⟨ps, popStacksLoop_start hstack (by rw [hq]; rfl), ?_, .refl _⟩
              refine ⟨q, qs ++ p :: below, ⟨?_, hnodup, hmade, hunmade, ?_⟩, hq⟩
              · rw [hstack, List.reverse_cons]
              · exact .cons (by rw [hp]; simp) (hds.snoc hv)
                  (fun r hr => hqs r (by simp [hr])) hctxs

theorem popStacks_holds {ps : Parser} {cs : List Ctx} {c : Ref} {below : List Ref} {v : Resp}
    (h : StackAt ps cs c below) (hv : Denotes ps.commands c v) :
    ∃ ps', popStacks ps = .ok ps' ∧ Holds ps' (Reader.close cs v) ∧
      EndKept ps.commands ps'.commands := by
  have hstack := h.stack
  rw [List.reverse_cons] at hstack
  obtain ⟨ps', hloop, hholds⟩ := @popStacksLoop_holds
    { ps with stack := below.reverse } cs c below v rfl (List.nodup_cons.mp h.nodup).2
    (fun r hr => h.made r (by simp [hr])) h.unmade h.ctxs hv
  refine ⟨ps', ?_, hholds⟩
  rw [popStacks, hstack, List.length_append, List.length_reverse, List.length_singleton,
    popStacksLoop_end hstack hv.status_end]
  exact hloop

end Artorias
