/-!
# Rounding to 53 bits

A binary floating-point number of double precision holds 53 significant bits. Here natural numbers are
rounded to that many bits, in exact arithmetic.
-/
namespace Misfit.Binary64

/-- Every natural number below this one has at most 53 bits. -/
def exactBound : Nat := Nat.pow 2 53

/-- The number with at most 53 significant bits that is nearest to `n`, and even in a tie. -/
def round (n : Nat) : Nat :=
  let excess := n.log2 + 1 - 53
  let unit := Nat.pow 2 excess
  let kept := n / unit
  let lost := n % unit
  if unit < 2 * lost ∨ (2 * lost = unit ∧ kept % 2 = 1) then (kept + 1) * unit else kept * unit

/-- Halfway between the largest finite number and the next power of two; from here on numbers are
rounded to infinity. -/
def overflowBound : Nat := (Nat.pow 2 54 - 1) * Nat.pow 2 970

/-- Numbers of up to 53 bits are kept. -/
theorem round_of_lt {n : Nat} (h : n < exactBound) : round n = n := by
  have hlog : n.log2 + 1 - 53 = 0 := by
    by_cases h0 : n = 0
    · subst h0
      decide
    · have := (Nat.log2_lt h0).2 h
      omega
  simp [round, hlog, Nat.mod_one]

end Misfit.Binary64
