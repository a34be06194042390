import Artorias.ParserSim
import Artorias.RedisWrap
import Artorias.RespSound

/-!
# What `Write` reads, accepts and survives

Over any number of calls, a parser reads back every value that can be sent
(`write_reads_back`); it accepts exactly encodings as long as no frame and no
number line slips through (`write_sound_iff`); and it panics only in `make`,
on the count of an array (`write_ok_iff`).
-/

namespace Artorias

/-! ## Calls of `Write` -/

namespace Parser

/-- Consecutive calls, each with what is not yet consumed and one more chunk:
the parser, the bytes consumed in all, and those left. -/
def writeChunks (lim : Nat) (ps : Parser) (left : Bytes) : List Bytes →
    GoRun (Parser × Nat × Bytes)
  | [] => .ok (ps, 0, left)
  | c :: cs => do
      let (ps, i) ← ps.write lim (left ++ c)
      let (ps, n, left) ← writeChunks lim ps ((left ++ c).drop i) cs
      .ok (ps, i + n, left)

theorem writeChunks_eq (lim : Nat) (ps : Parser) (left : Bytes) (chunks : List Bytes) :
    ps.writeChunks lim left chunks = (parser lim).feedChunks ps left chunks := by
  induction chunks generalizing ps left with
  | nil => rfl
  | cons c cs ih =>
      rw [writeChunks, Machine.feedChunks, write_eq_feed]
      cases (parser lim).feed ps (left ++ c) with
      | error e => rfl
      | ok r =>
          obtain ⟨ps', i⟩ := r
          rw [goBind_ok]
          dsimp only
          rw [ih]
          cases (parser lim).feedChunks ps' ((left ++ c).drop i) cs <;> rfl

/-- Each turn that the loop of `Write` takes meets `P`. -/
abbrev EachTurn (lim : Nat) (P : Parser → UInt8 → Prop) (ps : Parser) (bs : Bytes) : Prop :=
  (parser lim).EachStep P ps bs

/-- The parsers that calls of `Write` make of a fresh one, where each turn
meets `P`. -/
inductive WrittenBy (lim : Nat) (P : Parser → UInt8 → Prop) : Parser → Prop where
  | fresh : WrittenBy lim P newParser
  | write {ps ps' : Parser} {bs : Bytes} {n : Nat} : WrittenBy lim P ps →
      ps.EachTurn lim P bs → ps.write lim bs = .ok (ps', n) → WrittenBy lim P ps'

/-- The parsers that calls of `Write` make of a fresh one. -/
abbrev Written (lim : Nat) : Parser → Prop := WrittenBy lim fun _ _ => True

theorem WrittenBy.runs {lim : Nat} {P : Parser → UInt8 → Prop} {ps : Parser}
    (h : WrittenBy lim P ps) : ∃ bs, (parser lim).RunsBy P newParser bs ps := by
  induction h with
  | fresh => exact ⟨[], .nil⟩
  | @write ps ps' bs n _ hP hwrite ih =>
      obtain ⟨old, hold⟩ := ih
      rw [write_eq_feed] at hwrite
      obtain ⟨-, hruns, -⟩ := Machine.feed_spec hwrite
      rw [← List.take_append_drop n bs] at hP
      exact ⟨old ++ bs.take n, hold.append ⟨hruns, hP.left⟩⟩

theorem WrittenBy.holds {lim : Nat} {P : Parser → UInt8 → Prop} {ps : Parser}
    (h : WrittenBy lim P ps) : ∃ z, Holds ps z := by
  obtain ⟨bs, hruns, -⟩ := h.runs
  obtain ⟨z, -, hz⟩ := (parser_sim lim).runs_back holds_newParser hruns
  exact ⟨z, hz⟩

/-! ## What a byte completes -/

/-- The command on top of the stack. -/
def top (ps : Parser) : Option RedisCommand := ps.stack.getLast?.map ps.commands

/-- The type that the byte gives to a frame it begins. -/
def startsFrame (ps : Parser) (b : UInt8) : Option RcType :=
  match ps.top with
  | some rc => if rc.status = .start then some (Reader.lineType b) else none
  | none => none

/-- The line that the byte completes, and the type of its frame. -/
def endsLine (ps : Parser) (b : UInt8) : Option (RcType × Bytes) :=
  match ps.top with
  | some rc =>
      if rc.status = .unitlCrlf ∧ crlf <:+ ps.buffer ++ [b] then some (rc.type, ps.buffer.dropLast)
      else none
  | none => none

/-- The byte begins a frame of none of the five types, or completes a line without the
number it should hold: in both cases the parser goes on as if it had not been there. -/
def Slips (ps : Parser) (b : UInt8) : Prop :=
  ps.startsFrame b = some .unknown ∨ ∃ line, ps.endsLine b = some line ∧ BadNumber line

/-- The byte completes the count of an array, and `make` panics on it. -/
def Overcounts (lim : Nat) (ps : Parser) (b : UInt8) : Prop :=
  ∃ line, ps.endsLine b = some line ∧ BadCount lim line

end Parser

section

variable {ps : Parser} {z : Reader}

theorem Holds.top {cs : List Ctx} {f : Focus} (h : Holds ps (.reading cs f)) :
    ∃ c, ps.top = some (ps.commands c) ∧ FocusAt ps c f := by
  obtain ⟨c, below, hstack, hc⟩ := h
  refine ⟨c, ?_, hc⟩
  rw [Parser.top, hstack.stack, List.reverse_cons, List.getLast?_concat]
  rfl

theorem Holds.ended_top (h : Holds ps z) (hend : z.ended = true) : ps.top = none := by
  cases z with
  | reading cs f => cases hend
  | done v =>
      rw [Parser.top, h.1]
      rfl
  | rejected =>
      rw [Parser.top, h.1]
      rfl

theorem Holds.startsFrame (h : Holds ps z) (b : UInt8) : ps.startsFrame b = z.startsFrame b := by
  cases z with
  | reading cs f =>
      obtain ⟨c, htop, hc⟩ := h.top
      rw [Parser.startsFrame, htop]
      cases f with
      | start =>
          rw [show ps.commands c = newRedisCommand from hc]
          rfl
      | line ty text => simp [hc.1, Reader.startsFrame]
      | payload n text => simp [hc.1, Reader.startsFrame]
      | dead => simp [show ps.commands c = _ from hc, Reader.startsFrame]
  | _ =>
      rw [Parser.startsFrame, h.ended_top rfl]
      rfl

theorem Holds.endsLine (h : Holds ps z) (b : UInt8) : ps.endsLine b = z.endsLine b := by
  cases z with
  | reading cs f =>
      obtain ⟨c, htop, hc⟩ := h.top
      rw [Parser.endsLine, htop]
      cases f with
      | start =>
          rw [show ps.commands c = newRedisCommand from hc]
          simp [newRedisCommand, Reader.endsLine]
      | line ty text => simp [hc.1, hc.2, Reader.endsLine]
      | payload n text => simp [hc.1, Reader.endsLine]
      | dead => simp [show ps.commands c = _ from hc, Reader.endsLine]
  | _ =>
      rw [Parser.endsLine, h.ended_top rfl]
      rfl

theorem Holds.slips (h : Holds ps z) (b : UInt8) : ps.Slips b ↔ z.Slips b := by
  rw [Parser.Slips, Reader.Slips, h.startsFrame, h.endsLine]

theorem getCommand_eq_none : ps.getCommand = none ↔ ps.stack.isEmpty = false := by
  rw [Parser.getCommand, List.isEmpty_eq_false_iff]
  split_ifs with h <;> simp [h]

theorem Holds.getCommand_done {v : Resp} (h : Holds ps (.done v)) :
    ps.getCommand = some ps.redisCommand := if_pos h.1

end

theorem write_of_feed (lim : Nat) (bs : Bytes) {z : Reader} {n : Nat}
    (h : (reader lim).feed Reader.fresh bs = .ok (z, n)) :
    ∃ ps, newParser.write lim bs = .ok (ps, n) ∧ Holds ps z := by
  rw [Parser.write_eq_feed]
  exact (parser_sim lim).feed_ok holds_newParser h

/-! ## Reading back -/

/-- However `bs` and what follows it reach a fresh parser, there is no command
before the last byte of `bs`, and then there is one: `v`, read from exactly
`bs`. -/
def ReadsBack (lim : Nat) (bs : Bytes) (v : Resp) : Prop :=
  ∀ (rest : Bytes) (chunks : List Bytes), chunks.flatten = bs ++ rest →
    (∀ k, (chunks.take k).flatten.length < bs.length →
      ∃ ps n, newParser.writeChunks lim [] (chunks.take k) = .ok (ps, n, []) ∧
        ps.getCommand = none) ∧
    ∃ ps rc, newParser.writeChunks lim [] chunks = .ok (ps, bs.length, rest) ∧
      ps.getCommand = some rc ∧ (ps.commands rc).ok ∧ Denotes ps.commands rc v

theorem writeChunks_eq_feed (lim : Nat) (chunks : List Bytes) :
    newParser.writeChunks lim [] chunks = ((parser lim).feed newParser chunks.flatten).map
      fun r => (r.1, r.2, chunks.flatten.drop r.2) := by
  rw [Parser.writeChunks_eq, Machine.feedChunks_eq _ (.inl rfl)]
  rfl

theorem Denotes.ok {mem : Ref → RedisCommand} {r : Ref} {v : Resp} (h : Denotes mem r v)
    (hv : ∀ t, v ≠ .unknown t) : (mem r).ok := by
  cases v with
  | unknown t => exact absurd rfl (hv t)
  | array vs =>
      obtain ⟨rs, hr, -⟩ := h
      rw [hr]
      simp [RedisCommand.ok]
  | _ =>
      rw [Denotes] at h
      rw [h]
      simp [RedisCommand.ok]

theorem Encodes.readsBack {lim : Nat} {v : Resp} {bs : Bytes} (h : Encodes v bs)
    (hfits : v.Fits lim) : ReadsBack lim bs v := by
  intro rest chunks hchunks
  obtain ⟨ps, hruns, hps⟩ := (parser_sim lim).runs holds_newParser (h.reads [] hfits).1
  have hended : (parser lim).ended ps = true := List.isEmpty_iff.mpr hps.1
  refine ⟨fun k hk => ?_, ps, ps.redisCommand, ?_, hps.getCommand_done, ?_, hps.2⟩
  · -- the bytes so far are only the first part of `bs`
    have hpre : (chunks.take k).flatten <+: bs := by
      refine List.prefix_of_prefix_length_le ?_ (List.prefix_append bs rest) (Nat.le_of_lt hk)
      rw [← hchunks, ← List.take_append_drop k chunks, List.flatten_append]
      simp
    obtain ⟨more, hmore⟩ := hpre
    rw [← hmore] at hruns hk
    obtain ⟨ps₁, hfirst, hsecond⟩ := hruns.split
    have hne : more ≠ [] := by
      rintro rfl
      simp at hk
    refine ⟨ps₁, (chunks.take k).flatten.length, ?_, ?_⟩
    · rw [writeChunks_eq_feed, hfirst.feed]
      simp [Except.map]
    · exact getCommand_eq_none.mpr (hsecond.not_ended hne)
  · rw [writeChunks_eq_feed, hchunks, hruns.feed_ended hended]
    simp [Except.map]
  · exact hps.2.ok fun t ht => by
      rw [ht] at h
      cases h

/-- Every value that can be sent is read back, however it is cut into pieces and whatever
follows it, and so are all arguments that `WrapMulitBulk` encodes. -/
theorem write_reads_back (lim : Nat) :
    (∀ v : Resp, v.Sendable lim → ReadsBack lim v.encode v) ∧
    ∀ argv : List (Option Bytes), ArgsFit lim argv →
      ∃ bs, wrapMulitBulk argv.length argv = .ok bs ∧ ReadsBack lim bs (bulks argv) :=
  ⟨fun _ hv => (Resp.encode_encodes hv).readsBack hv.fits, fun argv hargv =>
    ⟨_, wrapMulitBulk_eq argv,
      (Resp.encode_encodes hargv.sendable).readsBack hargv.sendable.fits⟩⟩

/-- One argument, CR LF, in three pieces with one more byte after it; and two arguments, of
which one is empty and one is nil. -/
theorem write_reads_back_crlf :
    (∃ ps rc, newParser.writeChunks 8 []
        [[42, 49], [13, 10, 36, 50, 13, 10, 13, 10, 13], [10, 43]] = .ok (ps, 12, [43]) ∧
      ps.getCommand = some rc ∧ (ps.commands rc).ok ∧
      Denotes ps.commands rc (bulks [some [13, 10]])) ∧
    ∃ bs, wrapMulitBulk 2 [some [], none] = .ok bs ∧ ReadsBack 8 bs (bulks [some [], none]) := by
  have hsend : (bulks [some [13, 10]]).Sendable 8 := by simp [bulks, Resp.Sendable, AllSendable]
  exact ⟨((write_reads_back 8).1 _ hsend [43] _ (by decide)).2,
    (write_reads_back 8).2 _ ⟨by simp, by simp, by simp, by simp⟩⟩

/-! ## What is accepted -/

theorem Holds.complete {ps : Parser} {z : Reader} (h : Holds ps z) {rc : Ref}
    (hget : ps.getCommand = some rc) (hok : (ps.commands rc).ok) :
    ∃ v, z = .done v ∧ Denotes ps.commands rc v := by
  have hstack : ps.stack = [] := by
    by_contra hne
    rw [Parser.getCommand, if_neg hne] at hget
    cases hget
  obtain rfl : ps.redisCommand = rc := by
    rw [Parser.getCommand, if_pos hstack] at hget
    exact Option.some.inj hget
  cases z with
  | reading cs f =>
      obtain ⟨c, below, hat, -⟩ := h
      exact absurd (hat.stack.symm.trans hstack) (by simp)
  | done v => exact ⟨v, rfl, h.2⟩
  | rejected => simp [RedisCommand.ok, h.2] at hok

/-- A command that is `OK` was encoded in the bytes consumed exactly if no frame and no
number line slipped through: a byte that slips is consumed, but belongs to no encoding. -/
theorem write_sound_iff {lim : Nat} {bs : Bytes} {ps : Parser} {n : Nat} {rc : Ref}
    (hwrite : newParser.write lim bs = .ok (ps, n)) (hget : ps.getCommand = some rc)
    (hok : (ps.commands rc).ok) :
    (∃ v, Denotes ps.commands rc v ∧ Encodes v (bs.take n)) ↔
      newParser.EachTurn lim (fun q b => ¬q.Slips b) bs := by
  rw [Parser.write_eq_feed] at hwrite
  obtain ⟨-, hruns, -⟩ := Machine.feed_spec hwrite
  obtain ⟨z, hz, hholds⟩ := (parser_sim lim).runs_back holds_newParser hruns
  obtain ⟨v, rfl, hv⟩ := hholds.complete hget hok
  have hclean : newParser.EachTurn lim (fun q b => ¬q.Slips b) bs ↔
      (reader lim).EachStep (fun z b => ¬z.Slips b) Reader.fresh (bs.take n) := by
    rw [Parser.EachTurn, (parser_sim lim).eachStep (fun q z b h _ => not_congr (h.slips b))
      holds_newParser]
    nth_rewrite 1 [← List.take_append_drop n bs]
    rw [hz.eachStep_append]
    exact and_iff_left (.of_ended rfl)
  rw [hclean, ← Reader.encodes_iff_eachStep hz]
  constructor
  · rintro ⟨w, hw, henc⟩
    rwa [hv.unique hw]
  · exact fun henc => ⟨v, hv, henc⟩

/-- A line that holds no number, then one that does: `:x`, `5`. -/
def badNumberLine : Bytes := [58, 120, 13, 10, 53, 13, 10]

theorem badNumberLine_accepted :
    ¬∀ (bs : Bytes) (ps : Parser) (n : Nat) (rc : Ref), newParser.write (2 ^ 45) bs = .ok (ps, n) →
      ps.getCommand = some rc → (ps.commands rc).ok →
      ∃ v, Denotes ps.commands rc v ∧ Encodes v (bs.take n) := by
  intro hall
  obtain ⟨ps, hwrite, hps⟩ :=
    write_of_feed (2 ^ 45) badNumberLine (z := .done (.int 5)) (n := 7) rfl
  obtain ⟨v, hv, henc⟩ := hall _ _ _ _ hwrite hps.getCommand_done (hps.2.ok (by simp))
  cases hv.unique hps.2
  generalize hbs : badNumberLine.take 7 = bs at henc
  cases henc with
  | @int t _ ht =>
      have hline : badNumberLine = 58 :: ([120, 13, 10, 53] ++ crlf) := rfl
      obtain rfl : [120, 13, 10, 53] = t :=
        List.append_cancel_right (List.cons.inj (hline.symm.trans hbs)).2
      exact absurd ht (by decide)

theorem goodNumberLine_iff :
    ∃ ps n rc, newParser.write 8 [58, 53, 13, 10] = .ok (ps, n) ∧ ps.getCommand = some rc ∧
      ((∃ v, Denotes ps.commands rc v ∧ Encodes v (List.take n [58, 53, 13, 10])) ↔
        newParser.EachTurn 8 (fun q b => ¬q.Slips b) [58, 53, 13, 10]) := by
  obtain ⟨ps, hwrite, hps⟩ :=
    write_of_feed 8 [58, 53, 13, 10] (z := .done (.int 5)) (n := 4) rfl
  exact ⟨ps, 4, _, hwrite, hps.getCommand_done,
    write_sound_iff hwrite hps.getCommand_done (hps.2.ok (by simp))⟩

/-! ## Where `Write` panics -/

namespace Reader

theorem endLine_ok_iff {lim : Nat} {cs : List Ctx} {ty : RcType} {text : Bytes} :
    (∃ z, endLine lim cs ty text = .ok z) ↔
      ¬∃ line, some (ty, text) = some line ∧ BadCount lim line := by
  by_cases hbad : BadCount lim (ty, text)
  · obtain ⟨hty, i, hi, hlim⟩ := hbad
    obtain rfl : ty = .mulit := hty
    have herr : endLine lim cs .mulit text = .error .makeslice := by
      rw [endLine, show atoi text = some i from hi]
      exact if_pos hlim
    refine iff_of_false ?_ fun h => h ⟨_, rfl, rfl, i, hi, hlim⟩
    rintro ⟨z, hz⟩
    rw [herr] at hz
    cases hz
  · refine iff_of_true ?_ ?_
    · cases ty with
      | status => exact ⟨_, rfl⟩
      | error => exact ⟨_, rfl⟩
      | unknown => exact ⟨_, rfl⟩
      | int =>
          rw [endLine]
          split <;> exact ⟨_, rfl⟩
      | bulk =>
          rw [endLine]
          split
          · split_ifs <;> exact ⟨_, rfl⟩
          · exact ⟨_, rfl⟩
      | mulit =>
          rw [endLine]
          split
          · rename_i i hi
            exact ⟨_, if_neg fun hlim => hbad ⟨rfl, i, hi, hlim⟩⟩
          · exact ⟨_, rfl⟩
    · rintro ⟨line, hline, h⟩
      cases hline
      exact hbad h

theorem step_ok_iff {lim : Nat} {z : Reader} {b : UInt8} :
    (∃ z', (reader lim).step z b = .ok z') ↔
      ¬∃ line, z.endsLine b = some line ∧ BadCount lim line := by
  have hok : ∀ {z'}, (reader lim).step z b = .ok z' → z.endsLine b = none →
      ((∃ z', (reader lim).step z b = .ok z') ↔
        ¬∃ line, z.endsLine b = some line ∧ BadCount lim line) := by
    intro z' hstep hend
    refine iff_of_true ⟨z', hstep⟩ ?_
    rintro ⟨line, hline, -⟩
    rw [hend] at hline
    cases hline
  cases z with
  | done v => exact hok rfl rfl
  | rejected => exact hok rfl rfl
  | reading cs f =>
      cases f with
      | start => exact hok rfl rfl
      | dead => exact hok rfl rfl
      | payload n text =>
          by_cases hlen : ((text.length + 1 : Nat) : Int) = goInt (n + 2)
          · by_cases hcrlf : crlf <:+ text ++ [b]
            · exact hok ((if_pos hlen).trans (if_pos hcrlf)) rfl
            · exact hok ((if_pos hlen).trans (if_neg hcrlf)) rfl
          · exact hok (step_payload_of_ne hlen) rfl
      | line ty text =>
          by_cases hcrlf : crlf <:+ text ++ [b]
          · have hstep : (reader lim).step (.reading cs (.line ty text)) b =
                endLine lim cs ty text.dropLast := if_pos hcrlf
            have hline : (reading cs (.line ty text)).endsLine b = some (ty, text.dropLast) :=
              if_pos hcrlf
            rw [hstep, hline]
            exact endLine_ok_iff
          · exact hok (step_line_of_not hcrlf) (if_neg hcrlf)

end Reader

theorem Holds.overcounts {ps : Parser} {z : Reader} {lim : Nat} (h : Holds ps z) (b : UInt8) :
    ¬ps.Overcounts lim b ↔ ∃ z', (reader lim).step z b = .ok z' := by
  rw [Parser.Overcounts, h.endsLine, Reader.step_ok_iff]

/-- `Write` goes through exactly if no line that it completes is the count of an array that
`make` refuses; no other step of the parser can panic. -/
theorem write_ok_iff {lim : Nat} {ps : Parser} (h : Parser.Written lim ps) (bs : Bytes) :
    (∃ r, ps.write lim bs = .ok r) ↔ ps.EachTurn lim (fun q b => ¬q.Overcounts lim b) bs := by
  obtain ⟨z, hz⟩ := h.holds
  rw [Parser.write_eq_feed, Machine.feed_ok_iff, Parser.EachTurn,
    (parser_sim lim).eachStep (fun q z b hq _ => hq.overcounts b) hz]
  refine (parser_sim lim).eachStep (fun q z b hq hend => ?_) hz
  constructor
  · rintro ⟨q', hq'⟩
    cases hstep : (reader lim).step z b with
    | ok z' => exact ⟨z', rfl⟩
    | error e =>
        rw [(parser_sim lim).step_error hq hend hstep] at hq'
        cases hq'
  · rintro ⟨z', hz'⟩
    obtain ⟨q', hq', -⟩ := (parser_sim lim).step_ok hq hend hz'
    exact ⟨q', hq'⟩

/-- A negative count, -1, with which `make` panics. -/
theorem write_negative_count :
    ¬∀ (ps : Parser) (bs : Bytes), Parser.Written (2 ^ 45) ps →
      ∃ r, ps.write (2 ^ 45) bs = .ok r := by
  intro hall
  obtain ⟨r, hr⟩ := hall newParser [42, 45, 49, 13, 10] .fresh
  rw [Parser.write_eq_feed,
    (parser_sim (2 ^ 45)).feed_error holds_newParser (e := .makeslice) rfl] at hr
  cases hr

theorem write_count_iff :
    (∃ r, newParser.write 8 [42, 50, 13, 10] = .ok r) ↔
      newParser.EachTurn 8 (fun q b => ¬q.Overcounts 8 b) [42, 50, 13, 10] :=
  write_ok_iff .fresh _

end Artorias
