import Artorias.RedisParser

/-!
# Requests and replies as bytes (`dial/redis/wrap.go`)

A nil slice is `none`. `wrapMulitBulk_eq`: the wrapped arguments are the
canonical encoding of an array of bulk strings.
-/

namespace Artorias

def wrapBulk : Option Bytes → Bytes
  | none => [36, 45, 49, 13, 10]
  | some bs => 36 :: (intText bs.length ++ crlf ++ bs ++ crlf)

/-- The loop of `WrapMulitBulk` from index `i` on, with `n` turns left. -/
def wrapMulitBulkLoop (argv : List (Option Bytes)) : Nat → Nat → Bytes → GoRun Bytes
  | 0, _, wc => .ok wc
  | n + 1, i, wc => do
      let bs ← goIndex argv i
      wrapMulitBulkLoop argv n (i + 1) (wc ++ wrapBulk bs)

def wrapMulitBulk (argn : Int) (argv : List (Option Bytes)) : GoRun Bytes :=
  wrapMulitBulkLoop argv argn.toNat 0 (42 :: (intText argn ++ crlf))

/-- The value of a list of arguments. -/
def bulks (argv : List (Option Bytes)) : Resp := .array (argv.map .bulk)

theorem wrapBulk_eq (bs : Option Bytes) : wrapBulk bs = (Resp.bulk bs).encode := by
  cases bs with
  | none =>
      rw [Resp.encode]
      decide
  | some bs =>
      rw [Resp.encode, wrapBulk, List.append_assoc]
      rfl

theorem wrapMulitBulkLoop_eq {argv : List (Option Bytes)} {n i : Nat} (h : i + n = argv.length)
    (wc : Bytes) :
    wrapMulitBulkLoop argv n i wc = .ok (wc ++ encodeAll ((argv.drop i).map .bulk)) := by
  induction n generalizing i wc with
  | zero =>
      rw [wrapMulitBulkLoop, List.drop_of_length_le (by omega)]
      simp [encodeAll]
  | succ n ih =>
      have hi : i < argv.length := by omega
      have hget : goIndex argv i = .ok argv[i] := by
        rw [goIndex, if_neg (by omega), Int.toNat_natCast, List.getElem?_eq_getElem hi]
      rw [wrapMulitBulkLoop, hget, List.drop_eq_getElem_cons hi, List.map_cons, encodeAll,
        ← wrapBulk_eq, ← List.append_assoc]
      exact ih (by omega) _

theorem wrapMulitBulk_eq (argv : List (Option Bytes)) :
    wrapMulitBulk argv.length argv = .ok (bulks argv).encode := by
  rw [wrapMulitBulk, Int.toNat_natCast, wrapMulitBulkLoop_eq (by omega), bulks, Resp.encode]
  simp [intText]

/-- The sizes a list of arguments can be sent with. -/
structure ArgsFit (lim : Nat) (argv : List (Option Bytes)) : Prop where
  nonempty : argv ≠ []
  lim : argv.length ≤ lim
  count : argv.length < 2 ^ 62
  payloads : ∀ p, some p ∈ argv → p.length < 2 ^ 62

theorem allSendable_map {lim : Nat} {argv : List (Option Bytes)}
    (h : ∀ p, some p ∈ argv → p.length < 2 ^ 62) : AllSendable lim (argv.map .bulk) := by
  induction argv with
  | nil => trivial
  | cons arg argv ih =>
      refine ⟨?_, ih fun p hp => h p (by simp [hp])⟩
      cases arg with
      | none => trivial
      | some p => exact h p (by simp)

theorem ArgsFit.sendable {lim : Nat} {argv : List (Option Bytes)} (h : ArgsFit lim argv) :
    (bulks argv).Sendable lim := by
  rw [bulks, Resp.Sendable, List.length_map]
  exact ⟨by simpa using h.nonempty, h.lim, h.count, allSendable_map h.payloads⟩

end Artorias
