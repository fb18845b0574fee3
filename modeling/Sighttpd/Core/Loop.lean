/-!
# Loops and the rounds they take

A loop is given by what one round makes of its variables: new values for the next
round, or a result that leaves the loop. `run` allows a number of rounds.

* `run_invariant`: what holds of the variables in every round gives what holds of the result.
* `run_of_measure`: a loop whose rounds decrease a measure ends, with what any
  function that follows the rounds computes.
-/
namespace Sighttpd
namespace Loop
variable {S R : Type}

/-- The result after at most `n` rounds; `none` when the loop has not been left. -/
def run (body : S → S ⊕ R) : Nat → S → Option R
  | 0, _ => none
  | n + 1, s =>
    match body s with
    | .inl s' => run body n s'
    | .inr r => some r

/-- `f` follows the rounds of the loop. -/
def Follows (body : S → S ⊕ R) (f : S → R) : Prop := ∀ s, f s = (body s).elim f id

variable {body : S → S ⊕ R}

theorem run_succ (n : Nat) (s : S) : run body (n + 1) s = (body s).elim (run body n) some := by
  rw [run]
  cases body s <;> rfl

/-- **Invariant rule.** -/
theorem run_invariant {I : S → Prop} {Q : R → Prop}
    (hstep : ∀ s s', body s = .inl s' → I s → I s') (hexit : ∀ s r, body s = .inr r → I s → Q r)
    {n : Nat} {s : S} {r : R} (h : run body n s = some r) (hI : I s) : Q r := by
  induction n generalizing s with
  | zero => exact nomatch h
  | succ n ih =>
    rw [run_succ] at h
    cases e : body s with
    | inl s' =>
      rw [e] at h
      exact ih h (hstep s s' e hI)
    | inr r' =>
      rw [e] at h
      exact Option.some.inj h ▸ hexit s r' e hI

/-- **Measure rule.** -/
theorem run_of_measure {f : S → R} (hf : Follows body f) {size : S → Nat}
    (hstep : ∀ s s', body s = .inl s' → size s' < size s) {n : Nat} {s : S} (hn : size s < n) :
    run body n s = some (f s) := by
  induction n generalizing s with
  | zero => exact absurd hn (Nat.not_lt_zero _)
  | succ n ih =>
    rw [run_succ, hf s]
    cases e : body s with
    | inl s' =>
      have hlt := hstep s s' e
      exact ih (by omega)
    | inr r => rfl

end Loop
end Sighttpd
