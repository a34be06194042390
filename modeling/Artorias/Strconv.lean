import Mathlib.Algebra.Group.Int.Defs
import Mathlib.Algebra.Group.Nat.Defs
import Mathlib.Data.List.Basic

/-!
# Decimal text

`strconv.Atoi` and the verb `%d` on bytes: `Atoi` reads an optional sign and
at least one decimal digit and refuses anything else, and values that do not
fit in 64 bits.
-/

namespace Artorias

abbrev Bytes := List UInt8

def digitVal (b : UInt8) : Option Nat :=
  if 48 ≤ b.toNat ∧ b.toNat ≤ 57 then some (b.toNat - 48) else none

/-- Digits read after the value `acc`. -/
def decimalFrom (acc : Nat) : Bytes → Option Nat
  | [] => some acc
  | b :: bs =>
      match digitVal b with
      | some d => decimalFrom (10 * acc + d) bs
      | none => none

def decimal (bs : Bytes) : Option Nat :=
  if bs = [] then none else decimalFrom 0 bs

def fitsInt64 (i : Int) : Option Int :=
  if -2 ^ 63 ≤ i ∧ i < 2 ^ 63 then some i else none

/-- `strconv.Atoi`; `none` is an error. -/
def atoi : Bytes → Option Int
  | 45 :: bs => (decimal bs).bind fun n => fitsInt64 (-n)
  | 43 :: bs => (decimal bs).bind fun n => fitsInt64 n
  | bs => (decimal bs).bind fun n => fitsInt64 n

def natText (n : Nat) : Bytes := (Nat.toDigits 10 n).map fun c => c.toNat.toUInt8

/-- `%d` -/
def intText : Int → Bytes
  | .ofNat n => natText n
  | .negSucc n => 45 :: natText (n + 1)

/-! ## Reading back what was printed -/

theorem digitVal_digit {c : Char} (h : c.isDigit) :
    digitVal c.toNat.toUInt8 = some (c.toNat - 48) := by
  have hrange : 48 ≤ c.toNat ∧ c.toNat ≤ 57 := by
    rw [Char.isDigit, Bool.and_eq_true, decide_eq_true_eq, decide_eq_true_eq] at h
    exact ⟨h.1, h.2⟩
  have hbyte : c.toNat.toUInt8.toNat = c.toNat := by
    rw [Nat.toUInt8, UInt8.toNat_ofNat']
    omega
  rw [digitVal, hbyte, if_pos hrange]

theorem decimalFrom_map {cs : List Char} (h : ∀ c ∈ cs, c.isDigit) (acc : Nat) :
    decimalFrom acc (cs.map fun c => c.toNat.toUInt8) = some (Nat.ofDigitChars 10 cs acc) := by
  induction cs generalizing acc with
  | nil => simp [decimalFrom]
  | cons c cs ih =>
      rw [List.map_cons, decimalFrom, digitVal_digit (h c (by simp)), Nat.ofDigitChars_cons]
      exact ih (fun d hd => h d (by simp [hd])) _

theorem natText_ne_nil (n : Nat) : natText n ≠ [] := by
  simp [natText, Nat.toDigits_ne_nil]

theorem decimal_natText (n : Nat) : decimal (natText n) = some n := by
  rw [decimal, if_neg (natText_ne_nil n), natText, decimalFrom_map fun c hc =>
    Nat.isDigit_of_mem_toDigits (by decide) (by decide) hc, Nat.ofDigitChars_ten_toDigits]

theorem natText_digits {n : Nat} {b : UInt8} (h : b ∈ natText n) : (digitVal b).isSome := by
  obtain ⟨c, hc, rfl⟩ := List.mem_map.mp h
  rw [digitVal_digit (Nat.isDigit_of_mem_toDigits (by decide) (by decide) hc)]
  rfl

theorem atoi_natText {n : Nat} (h : n < 2 ^ 63) : atoi (natText n) = some (n : Int) := by
  have hfits : fitsInt64 n = some (n : Int) := if_pos ⟨by omega, by omega⟩
  obtain ⟨b, bs, hbs⟩ := List.exists_cons_of_ne_nil (natText_ne_nil n)
  have hdigit : (digitVal b).isSome := natText_digits (n := n) (by simp [hbs])
  have hdec := decimal_natText n
  rw [hbs] at hdec ⊢
  -- no sign in front
  have hne : b ≠ 45 ∧ b ≠ 43 := by
    constructor <;> rintro rfl <;> exact absurd hdigit (by decide)
  unfold atoi
  split
  · rename_i he
    exact absurd (List.cons.inj he).1 hne.1
  · rename_i he
    exact absurd (List.cons.inj he).1 hne.2
  · rw [hdec, Option.bind_some, hfits]

theorem atoi_intText {i : Int} (h : -2 ^ 63 ≤ i ∧ i < 2 ^ 63) : atoi (intText i) = some i := by
  cases i with
  | ofNat n => exact atoi_natText (by have := h.2; simp only [Int.ofNat_eq_natCast] at this; omega)
  | negSucc n =>
      have hneg : -((n + 1 : Nat) : Int) = Int.negSucc n := by omega
      rw [intText, atoi, decimal_natText, Option.bind_some, hneg, fitsInt64, if_pos h]

/-! ## What `Atoi` accepts -/

theorem decimalFrom_digits {bs : Bytes} {acc n : Nat} (h : decimalFrom acc bs = some n) :
    ∀ b ∈ bs, (digitVal b).isSome := by
  induction bs generalizing acc with
  | nil => simp
  | cons b bs ih =>
      rw [decimalFrom] at h
      cases hd : digitVal b with
      | none => rw [hd] at h; cases h
      | some d =>
          rw [hd] at h
          intro x hx
          rcases List.mem_cons.mp hx with rfl | hx
          · rw [hd]
            rfl
          · exact ih h x hx

theorem decimal_digits {bs : Bytes} {n : Nat} (h : decimal bs = some n) :
    ∀ b ∈ bs, (digitVal b).isSome := by
  rw [decimal] at h
  split at h
  · cases h
  · exact decimalFrom_digits h

/-- What `Atoi` reads consists of signs and digits only, and so has no line end in it. -/
theorem atoi_bytes {bs : Bytes} {i : Int} (h : atoi bs = some i) :
    ∀ b ∈ bs, b = 45 ∨ b = 43 ∨ (digitVal b).isSome := by
  unfold atoi at h
  split at h
  all_goals
    obtain ⟨n, hn, -⟩ := Option.bind_eq_some_iff.mp h
    intro b hb
  · rcases List.mem_cons.mp hb with rfl | hb
    · exact .inl rfl
    · exact .inr (.inr (decimal_digits hn b hb))
  · rcases List.mem_cons.mp hb with rfl | hb
    · exact .inr (.inl rfl)
    · exact .inr (.inr (decimal_digits hn b hb))
  · exact .inr (.inr (decimal_digits hn b hb))

theorem atoi_lt {bs : Bytes} {i : Int} (h : atoi bs = some i) : -2 ^ 63 ≤ i ∧ i < 2 ^ 63 := by
  unfold atoi at h
  split at h
  all_goals
    obtain ⟨n, -, hfits⟩ := Option.bind_eq_some_iff.mp h
    rw [fitsInt64] at hfits
    split at hfits
    · rename_i hrange
      cases hfits
      exact hrange
    · cases hfits

end Artorias
