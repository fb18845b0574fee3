import Sighttpd.Core.Loop
import Sighttpd.L3Config.CfgParse

/-!
# The configuration parser ends

The loops of `cfg-parse.c`, round by round: `while (c == NUL)` in `copa_next`, the
`while` loops of `copa_skip_over`, `copa_skip_to` and `copa_slurp_to`, and
`while (parser.active)` in `copa_read_fd`. No loop has a counter. What decreases is the
input still to come (`CopaInput.left`, `CopaInput.fuel`).

* `nextBody_ends`, `skipBody_ends`, `slurpBody_ends`: the inner loops, from any state.
* `readFd_ends`: for any results of `read(2)` and any callbacks, the outer loop ends,
  each of its rounds but the last using up input.
-/
namespace Sighttpd.L3

/-! ## The rounds -/

/-- A round of the loop of `copa_next`; mirrors src/cfg-parse.c:266-369 -/
def nextBody (p : CopaInput) : CopaInput ⊕ (UInt8 × CopaInput) :=
  match rawNext p with
  | (none, p) => .inr (eof, p)
  | (some c, p) => if (copaDecode p c).1 = 0 then .inl (copaDecode p c).2 else .inr (copaDecode p c)

/-- A round of the loop of `copa_skip_over` (`stop` for a character outside the class) and
`copa_skip_to` (for one inside); mirrors src/cfg-parse.c:407-412 and 428-433 -/
def skipBody (stop : UInt8 → Bool) (p : CopaInput) : CopaInput ⊕ CopaInput :=
  let (c, p) := copaNext p
  if c = eof then .inr p else if stop c then .inr (p.unread c) else .inl p

/-- A round of the loop of `copa_slurp_to`; mirrors src/cfg-parse.c:449-472 -/
def slurpBody (goodEnd badEnd : List CharClass) (v : Bytes × CopaInput) :
    (Bytes × CopaInput) ⊕ (Option Bytes × CopaInput) :=
  let (ret, p) := v
  let (c, p) := copaNext p
  if c = eof then .inr (some ret, p)
  else if copaCin c goodEnd then .inr (some ret, p.unread c)
  else if copaCin c badEnd then .inr (none, { p.unread c with active := false })
  else .inl (ret ++ [c], p)

/-- A round of the loop of `copa_read_fd`; mirrors src/cfg-parse.c:684 -/
def lineBody {σ : Type} (cb : Callbacks σ) (p : CopaParser σ) : CopaParser σ ⊕ CopaParser σ :=
  if p.input.active then .inl (copaParseLine cb p) else .inr p

/-! ## The inner loops -/

theorem nextBody_follows : Loop.Follows nextBody copaNextLoop := by
  intro p
  rw [copaNextLoop, nextBody]
  rcases rawNext p with ⟨c, p'⟩
  cases c with
  | none => rfl
  | some c =>
    by_cases h : (copaDecode p' c).1 = 0
    · simp only [h, if_true, Sum.elim_inl]
    · simp only [h, if_false, Sum.elim_inr, id_eq]

theorem nextBody_left {p p' : CopaInput} (h : nextBody p = .inl p') : p'.left < p.left := by
  unfold nextBody at h
  have hleft := (rawNext_left p).1
  rcases hr : rawNext p with ⟨c, q⟩
  rw [hr] at h hleft
  cases c with
  | none => cases h
  | some c =>
    simp only at h
    split at h
    · cases h
      rw [copaDecode_left]
      exact hleft c rfl
    · cases h

theorem nextBody_ends (p : CopaInput) : Loop.run nextBody (p.left + 1) p = some (copaNextLoop p) :=
  Loop.run_of_measure nextBody_follows (fun _ _ => nextBody_left) (Nat.lt_succ_self _)

theorem skipBody_follows (stop : UInt8 → Bool) : Loop.Follows (skipBody stop) (copaSkip stop) := by
  intro p
  rw [copaSkip, skipBody]
  by_cases he : (copaNext p).1 = eof
  · simp only [he, dite_true, if_true, Sum.elim_inr, id_eq]
  · by_cases hs : stop (copaNext p).1 = true
    · simp only [he, hs, dite_false, if_true, if_false, Sum.elim_inr, id_eq]
    · simp only [he, hs, dite_false, Bool.false_eq_true, if_false, Sum.elim_inl]

theorem skipBody_fuel {stop : UInt8 → Bool} {p p' : CopaInput} (h : skipBody stop p = .inl p') :
    p'.fuel < p.fuel := by
  unfold skipBody at h
  simp only at h
  split at h
  · cases h
  · next he =>
    split at h
    · cases h
    · cases h
      exact (copaNext_fuel p).resolve_right fun hend => he hend.1

theorem skipBody_ends (stop : UInt8 → Bool) (p : CopaInput) :
    Loop.run (skipBody stop) (p.fuel + 1) p = some (copaSkip stop p) :=
  Loop.run_of_measure (skipBody_follows stop) (fun _ _ => skipBody_fuel) (Nat.lt_succ_self _)

theorem slurpBody_follows (g b : List CharClass) :
    Loop.Follows (slurpBody g b) fun v => copaSlurp g b v.1 v.2 := by
  rintro ⟨ret, p⟩
  simp only
  rw [copaSlurp, slurpBody]
  by_cases he : (copaNext p).1 = eof
  · simp only [he, dite_true, if_true, Sum.elim_inr, id_eq]
  · by_cases hg : copaCin (copaNext p).1 g = true
    · simp only [he, hg, dite_false, if_true, if_false, Sum.elim_inr, id_eq]
    · by_cases hb : copaCin (copaNext p).1 b = true
      · simp only [he, hg, hb, dite_false, Bool.false_eq_true, if_true, if_false, Sum.elim_inr, id_eq]
      · simp only [he, hg, hb, dite_false, Bool.false_eq_true, if_false, Sum.elim_inl]

theorem slurpBody_fuel {g b : List CharClass} {v v' : Bytes × CopaInput}
    (h : slurpBody g b v = .inl v') : v'.2.fuel < v.2.fuel := by
  obtain ⟨ret, p⟩ := v
  unfold slurpBody at h
  simp only at h
  split at h
  · cases h
  · next he =>
    split at h
    · cases h
    · split at h
      · cases h
      · cases h
        exact (copaNext_fuel p).resolve_right fun hend => he hend.1

theorem slurpBody_ends (g b : List CharClass) (ret : Bytes) (p : CopaInput) :
    Loop.run (slurpBody g b) (p.fuel + 1) (ret, p) = some (copaSlurp g b ret p) :=
  Loop.run_of_measure (f := fun v => copaSlurp g b v.1 v.2) (slurpBody_follows g b)
    (fun _ _ => slurpBody_fuel) (Nat.lt_succ_self p.fuel)

/-! ## The outer loop -/

section Outer
variable {σ : Type} (cb : Callbacks σ)

theorem lineBody_follows : Loop.Follows (lineBody cb) (copaLoop cb) := by
  intro p
  unfold lineBody
  by_cases ha : p.input.active = true
  · rw [copaLoop_active cb ha, if_pos ha, Sum.elim_inl]
  · rw [copaLoop_stopped cb ha, if_neg ha, Sum.elim_inr, id]

/-- What a line uses up; an active parser has one round more to go. -/
def roundsLeft (p : CopaParser σ) : Nat := if p.input.active then p.input.fuel + 1 else 0

theorem lineBody_rounds {p p' : CopaParser σ} (h : lineBody cb p = .inl p') :
    roundsLeft p' < roundsLeft p := by
  unfold lineBody at h
  split at h
  · next ha =>
    cases h
    unfold roundsLeft
    rw [if_pos ha]
    split
    · next ha' =>
      have := (copaParseLine_usesUp cb ha).2 ha'
      omega
    · omega
  · cases h

/-- Each read gives at most eight bytes, and a byte at most two characters of work. -/
theorem roundsLeft_start (fd : List (Option Bytes)) (user : σ) :
    roundsLeft (⟨(copaRefill (.init fd)).2, .ok, user, []⟩ : CopaParser σ) ≤ 16 * fd.length + 18 := by
  have hleft : (copaRefill (.init fd)).2.left ≤ (CopaInput.init fd).left := by
    have h := copaRefill_left (.init fd)
    cases hr : (copaRefill (.init fd)).1 with
    | true => exact (h.1 hr).2
    | false => exact (h.2 hr).1
  have hinit : (CopaInput.init fd).left = 8 * fd.length + 8 := rfl
  have hfuel := (fuel_bounds (copaRefill (.init fd)).2).2
  unfold roundsLeft
  simp only
  split <;> omega

/-- **Termination.** For every file, however `read(2)` cuts it up and whatever the
callbacks do: the loops of `copa_next`, `copa_skip_over`, `copa_skip_to` and
`copa_slurp_to` end from any state; a line that leaves the parser active has used up
input; and the lines of the file come to an end, so that `copa_read_fd` returns. -/
theorem readFd_ends (fd : List (Option Bytes)) (user : σ) :
    (∀ p, ∃ n, Loop.run nextBody n p = some (copaNextLoop p)) ∧
    (∀ stop p, ∃ n, Loop.run (skipBody stop) n p = some (copaSkip stop p)) ∧
    (∀ goodEnd badEnd ret p, ∃ n,
      Loop.run (slurpBody goodEnd badEnd) n (ret, p) = some (copaSlurp goodEnd badEnd ret p)) ∧
    (∀ p, p.input.active = true → (copaParseLine cb p).input.active = true →
      (copaParseLine cb p).input.fuel < p.input.fuel) ∧
    ((copaRefill (.init fd)).1 = false ∨ ∃ n ≤ 16 * fd.length + 19,
      Loop.run (lineBody cb) n ⟨(copaRefill (.init fd)).2, .ok, user, []⟩ =
        some (copaReadFd cb fd user).2) := by
  refine ⟨fun p => ⟨_, nextBody_ends p⟩, fun stop p => ⟨_, skipBody_ends stop p⟩,
    fun g b ret p => ⟨_, slurpBody_ends g b ret p⟩, fun p ha => (copaParseLine_usesUp cb ha).2, ?_⟩
  cases hr : copaRefill (.init fd) with
  | mk ok input =>
    cases ok with
    | false => exact .inl rfl
    | true =>
      have hstart := roundsLeft_start fd user
      rw [hr] at hstart
      refine .inr ⟨16 * fd.length + 19, Nat.le_refl _, ?_⟩
      rw [copaReadFd, hr]
      exact Loop.run_of_measure (lineBody_follows cb) (fun _ _ => lineBody_rounds cb) (by omega)

end Outer

end Sighttpd.L3
