import Sighttpd.L3Config.CfgScan

/-!
# The scanner over a stream of characters

What the functions over `copa_next` do is a matter of the characters it returns, and not of
how they are read or decoded. A `CharStream` says which characters are to come; the byte
0xFF may be among them, and ends every loop as the end of the input does; it is not in a
`CleanStream`.

* `CharStream.skip_stop`, `CharStream.slurp_good`, ..: the loops, by what ends them.
* `CharStream.skip_drop`, `CharStream.slurp_drop`: the loops on all that is to come.
* `CharStream.stays_next`, ..: no function leaves the stream.
-/
namespace Sighttpd.L3

/-- `R p cs a`: the input `p` hands out `cs` and then the end; `a` is its `active` flag. -/
structure CharStream (R : CopaInput → Bytes → Bool → Prop) : Prop where
  next_nil : ∀ {p a}, R p [] a → (copaNext p).1 = eof ∧ R (copaNext p).2 [] false
  next_cons : ∀ {p c cs a}, R p (c :: cs) a → (copaNext p).1 = c ∧ R (copaNext p).2 cs a
  unread : ∀ {p c cs a}, R p (c :: cs) a → c ≠ eof → R ((copaNext p).2.unread c) (c :: cs) a
  stop : ∀ {p cs a}, R p cs a → R { p with active := false } cs false
  active : ∀ {p cs a}, R p cs a → p.active = a
  pending : ∀ {p cs a}, R p cs a → p.pushback ≠ 0 → cs.head? = some p.pushback ∧ p.pushback ≠ eof

/-- A stream without the byte 0xFF. -/
structure CleanStream (R : CopaInput → Bytes → Bool → Prop) : Prop extends CharStream R where
  ne_eof : ∀ {p cs a}, R p cs a → ∀ c ∈ cs, c ≠ eof

/-- What is left when a 0xFF byte has been taken for the end. -/
def peeked : Bytes → Bytes
  | [] => []
  | c :: r => if c = eof then r else c :: r

theorem copaCin_eof (k : List CharClass) : copaCin eof k = false := by
  rw [copaCin, List.any_eq_false]
  intro x _
  cases x <;> decide

/-- The characters of a class are not the end. -/
theorem ne_eof_of_cin {c : UInt8} {k : List CharClass} (hc : copaCin c k = true) : c ≠ eof := by
  rintro rfl
  rw [copaCin_eof] at hc
  exact absurd hc (by simp)

namespace CharStream
variable {R : CopaInput → Bytes → Bool → Prop} (hR : CharStream R)
include hR

section Chars
variable {p : CopaInput} {c : UInt8} {w cs : Bytes} {a : Bool}

theorem peek_nil (h : R p [] a) : (copaPeek p).1 = eof ∧ R (copaPeek p).2 [] false := by
  have hpb : p.pushback = 0 := by
    by_contra hne
    exact absurd (hR.pending h hne).1 (by simp)
  obtain ⟨h1, h2⟩ := hR.next_nil h
  rw [copaPeek, if_neg (by simpa using hpb), if_pos h1]
  exact ⟨rfl, h2⟩

theorem peek_cons (h : R p (c :: cs) a) (hc : c ≠ eof) :
    (copaPeek p).1 = c ∧ R (copaPeek p).2 (c :: cs) a := by
  rw [copaPeek]
  by_cases hpb : p.pushback = 0
  · have h1 := (hR.next_cons h).1
    rw [if_neg (by simpa using hpb), if_neg (h1 ▸ hc), h1]
    exact ⟨rfl, hR.unread h hc⟩
  · rw [if_pos hpb]
    exact ⟨(Option.some.inj (hR.pending h hpb).1).symm, h⟩

/-- The byte 0xFF looks like the end, and has been read. -/
theorem peek_eof (h : R p (eof :: cs) a) : (copaPeek p).1 = eof ∧ R (copaPeek p).2 cs a := by
  have hpb : p.pushback = 0 := by
    by_contra hne
    obtain ⟨h1, h2⟩ := hR.pending h hne
    exact h2 (Option.some.inj h1).symm
  obtain ⟨h1, h2⟩ := hR.next_cons h
  rw [copaPeek, if_neg (by simpa using hpb), if_pos h1]
  exact ⟨rfl, h2⟩

/-! ## Skipping -/

section Skip
variable {stop : UInt8 → Bool}

/-- The characters in front of the one that ends the loop. -/
theorem skip_over (h : R p (w ++ cs) a) (hw : ∀ d ∈ w, stop d = false ∧ d ≠ eof) :
    ∃ q, copaSkip stop p = copaSkip stop q ∧ R q cs a := by
  induction w generalizing p with
  | nil => exact ⟨p, rfl, h⟩
  | cons d w ih =>
    obtain ⟨⟨hd, hne⟩, hw⟩ := List.forall_mem_cons.mp hw
    obtain ⟨h1, h2⟩ := hR.next_cons h
    rw [copaSkip, dif_neg (h1 ▸ hne), h1, if_neg (by simp [hd])]
    exact ih h2 hw

theorem skip_stop (h : R p (w ++ c :: cs) a) (hw : ∀ d ∈ w, stop d = false ∧ d ≠ eof)
    (hs : stop c = true) (hc : c ≠ eof) : R (copaSkip stop p) (c :: cs) a := by
  obtain ⟨q, heq, hq⟩ := hR.skip_over h hw
  have h1 := (hR.next_cons hq).1
  rw [heq, copaSkip, dif_neg (h1 ▸ hc), if_pos (by rw [h1]; exact hs), h1]
  exact hR.unread hq hc

theorem skip_eof (h : R p (w ++ eof :: cs) a) (hw : ∀ d ∈ w, stop d = false ∧ d ≠ eof) :
    R (copaSkip stop p) cs a := by
  obtain ⟨q, heq, hq⟩ := hR.skip_over h hw
  obtain ⟨h1, h2⟩ := hR.next_cons hq
  rw [heq, copaSkip, dif_pos h1]
  exact h2

theorem skip_end (h : R p w a) (hw : ∀ d ∈ w, stop d = false ∧ d ≠ eof) :
    R (copaSkip stop p) [] false := by
  rw [← List.append_nil w] at h
  obtain ⟨q, heq, hq⟩ := hR.skip_over h hw
  obtain ⟨h1, h2⟩ := hR.next_nil hq
  rw [heq, copaSkip, dif_pos h1]
  exact h2

/-- With all that is to come: `keep` is what the loop goes over. -/
theorem skip_drop {keep : UInt8 → Bool} (h : R p cs a) (hkeep : ∀ c, keep c = (!stop c && c != eof)) :
    R (copaSkip stop p) (peeked (cs.dropWhile keep)) (a && !(cs.dropWhile keep).isEmpty) := by
  have hsplit := List.takeWhile_append_dropWhile (p := keep) (l := cs)
  have hw : ∀ d ∈ cs.takeWhile keep, stop d = false ∧ d ≠ eof := by
    intro d hd
    have hd := List.mem_takeWhile_imp hd
    rw [hkeep] at hd
    simpa using hd
  cases hdrop : cs.dropWhile keep with
  | nil =>
    rw [hdrop, List.append_nil] at hsplit
    rw [hsplit] at hw
    simpa [peeked] using hR.skip_end h hw
  | cons c r =>
    rw [hdrop] at hsplit
    have h' : R p (cs.takeWhile keep ++ c :: r) a := hsplit.symm ▸ h
    by_cases heof : c = eof
    · subst heof
      simpa [peeked] using hR.skip_eof h' hw
    · have hc : keep c = false := CString.dropWhile_stop hdrop
      have hs : stop c = true := by simpa [hkeep, heof] using hc
      simpa [peeked, heof] using hR.skip_stop h' hw hs heof

end Skip

/-! ## Slurping -/

section Slurp
variable {g b : List CharClass}

/-- Characters that are neither ends nor 0xFF are kept. -/
theorem slurp_over (ret : Bytes) (h : R p (w ++ cs) a)
    (hw : ∀ d ∈ w, copaCin d g = false ∧ copaCin d b = false ∧ d ≠ eof) :
    ∃ q, copaSlurp g b ret p = copaSlurp g b (ret ++ w) q ∧ R q cs a := by
  induction w generalizing p ret with
  | nil => exact ⟨p, by rw [List.append_nil], h⟩
  | cons d w ih =>
    obtain ⟨⟨hg, hb, hne⟩, hw⟩ := List.forall_mem_cons.mp hw
    obtain ⟨h1, h2⟩ := hR.next_cons h
    rw [copaSlurp, dif_neg (h1 ▸ hne), h1, if_neg (by simp [hg]), if_neg (by simp [hb])]
    simpa using ih (ret ++ [d]) h2 hw

theorem slurp_good (ret : Bytes) (h : R p (w ++ c :: cs) a)
    (hw : ∀ d ∈ w, copaCin d g = false ∧ copaCin d b = false ∧ d ≠ eof) (hg : copaCin c g = true) :
    (copaSlurp g b ret p).1 = some (ret ++ w) ∧ R (copaSlurp g b ret p).2 (c :: cs) a := by
  obtain ⟨q, heq, hq⟩ := hR.slurp_over ret h hw
  have h1 := (hR.next_cons hq).1
  rw [heq, copaSlurp, dif_neg (h1 ▸ ne_eof_of_cin hg), h1, if_pos hg]
  exact ⟨rfl, hR.unread hq (ne_eof_of_cin hg)⟩

theorem slurp_bad (ret : Bytes) (h : R p (w ++ c :: cs) a)
    (hw : ∀ d ∈ w, copaCin d g = false ∧ copaCin d b = false ∧ d ≠ eof) (hg : copaCin c g = false)
    (hb : copaCin c b = true) :
    (copaSlurp g b ret p).1 = none ∧ R (copaSlurp g b ret p).2 (c :: cs) false := by
  obtain ⟨q, heq, hq⟩ := hR.slurp_over ret h hw
  have h1 := (hR.next_cons hq).1
  rw [heq, copaSlurp, dif_neg (h1 ▸ ne_eof_of_cin hb), h1, if_neg (by simp [hg]), if_pos hb]
  exact ⟨rfl, hR.stop (hR.unread hq (ne_eof_of_cin hb))⟩

theorem slurp_eof (ret : Bytes) (h : R p (w ++ eof :: cs) a)
    (hw : ∀ d ∈ w, copaCin d g = false ∧ copaCin d b = false ∧ d ≠ eof) :
    (copaSlurp g b ret p).1 = some (ret ++ w) ∧ R (copaSlurp g b ret p).2 cs a := by
  obtain ⟨q, heq, hq⟩ := hR.slurp_over ret h hw
  obtain ⟨h1, h2⟩ := hR.next_cons hq
  rw [heq, copaSlurp, dif_pos h1]
  exact ⟨rfl, h2⟩

theorem slurp_end (ret : Bytes) (h : R p w a)
    (hw : ∀ d ∈ w, copaCin d g = false ∧ copaCin d b = false ∧ d ≠ eof) :
    (copaSlurp g b ret p).1 = some (ret ++ w) ∧ R (copaSlurp g b ret p).2 [] false := by
  rw [← List.append_nil w] at h
  obtain ⟨q, heq, hq⟩ := hR.slurp_over ret h hw
  obtain ⟨h1, h2⟩ := hR.next_nil hq
  rw [heq, copaSlurp, dif_pos h1]
  exact ⟨rfl, h2⟩

/-- With all that is to come: a bad character, or a word up to a good one or the end. -/
theorem slurp_drop {keep : UInt8 → Bool} (ret : Bytes) (h : R p cs a)
    (hkeep : ∀ c, keep c = (!copaCin c g && !copaCin c b && c != eof)) :
    ((∃ c, (cs.dropWhile keep).head? = some c ∧ copaCin c g = false ∧ c ≠ eof) →
      (copaSlurp g b ret p).1 = none ∧ R (copaSlurp g b ret p).2 (cs.dropWhile keep) false) ∧
    ((∀ c, (cs.dropWhile keep).head? = some c → copaCin c g = true ∨ c = eof) →
      (copaSlurp g b ret p).1 = some (ret ++ cs.takeWhile keep) ∧
        R (copaSlurp g b ret p).2 (peeked (cs.dropWhile keep)) (a && !(cs.dropWhile keep).isEmpty)) := by
  have hsplit := List.takeWhile_append_dropWhile (p := keep) (l := cs)
  have hw : ∀ d ∈ cs.takeWhile keep, copaCin d g = false ∧ copaCin d b = false ∧ d ≠ eof := by
    intro d hd
    have hd := List.mem_takeWhile_imp hd
    rw [hkeep] at hd
    simpa [and_assoc] using hd
  cases hdrop : cs.dropWhile keep with
  | nil =>
    rw [hdrop, List.append_nil] at hsplit
    rw [hsplit] at hw ⊢
    refine ⟨fun hbad => ?_, fun _ => ?_⟩
    · obtain ⟨c, hc, -⟩ := hbad
      exact absurd hc (by simp)
    · simpa [peeked] using hR.slurp_end ret h hw
  | cons c r =>
    rw [hdrop] at hsplit
    have h' : R p (cs.takeWhile keep ++ c :: r) a := hsplit.symm ▸ h
    have hc : keep c = false := CString.dropWhile_stop hdrop
    rw [hkeep] at hc
    constructor
    · rintro ⟨d, hd, hg, hne⟩
      obtain rfl : c = d := by simpa using hd
      have hb : copaCin c b = true := by simpa [hg, hne] using hc
      exact hR.slurp_bad ret h' hw hg hb
    · intro hgood
      rcases hgood c rfl with hg | rfl
      · have hne := ne_eof_of_cin hg
        simpa [peeked, hne] using hR.slurp_good ret h' hw hg
      · simpa [peeked] using hR.slurp_eof ret h' hw

end Slurp

/-! ## A character that has to be there -/

theorem assertAndPass_cons (k : List CharClass) (h : R p (c :: cs) true) :
    (copaAssertAndPass p k).1 = copaCin c k ∧ R (copaAssertAndPass p k).2 cs (copaCin c k) := by
  obtain ⟨h1, h2⟩ := hR.next_cons h
  rw [copaAssertAndPass, if_neg (by simp [hR.active h]), h1]
  cases hk : copaCin c k with
  | false => rw [if_pos (by rfl)]; exact ⟨rfl, hR.stop h2⟩
  | true => rw [if_neg (by simp)]; exact ⟨rfl, h2⟩

end Chars

/-! ## Staying on the stream -/

section Stays
variable {p : CopaInput}

theorem stays_next (h : ∃ cs a, R p cs a) : ∃ cs a, R (copaNext p).2 cs a := by
  obtain ⟨cs, a, h⟩ := h
  cases cs with
  | nil => exact ⟨[], false, (hR.next_nil h).2⟩
  | cons c cs => exact ⟨cs, a, (hR.next_cons h).2⟩

theorem stays_unread (h : ∃ cs a, R p cs a) (hc : (copaNext p).1 ≠ eof) :
    ∃ cs a, R ((copaNext p).2.unread (copaNext p).1) cs a := by
  obtain ⟨cs, a, h⟩ := h
  cases cs with
  | nil => exact absurd (hR.next_nil h).1 hc
  | cons c cs =>
    have h1 := (hR.next_cons h).1
    rw [h1] at hc ⊢
    exact ⟨c :: cs, a, hR.unread h hc⟩

theorem stays_stop (h : ∃ cs a, R p cs a) : ∃ cs a, R { p with active := false } cs a := by
  obtain ⟨cs, a, h⟩ := h
  exact ⟨cs, false, hR.stop h⟩

theorem stays_peek (h : ∃ cs a, R p cs a) : ∃ cs a, R (copaPeek p).2 cs a := by
  unfold copaPeek
  split
  · exact h
  · split
    · exact hR.stays_next h
    · exact hR.stays_unread h ‹_›

theorem stays_skip (stop : UInt8 → Bool) (h : ∃ cs a, R p cs a) : ∃ cs a, R (copaSkip stop p) cs a := by
  induction p using copaSkip.induct stop with
  | case1 p he => rw [copaSkip, dif_pos he]; exact hR.stays_next h
  | case2 p he hs => rw [copaSkip, dif_neg he, if_pos hs]; exact hR.stays_unread h he
  | case3 p he hs ih => rw [copaSkip, dif_neg he, if_neg hs]; exact ih (hR.stays_next h)

theorem stays_skipWhitespace (h : ∃ cs a, R p cs a) : ∃ cs a, R (copaSkipWhitespace p) cs a := by
  unfold copaSkipWhitespace copaSkipOver
  split
  · exact h
  · exact hR.stays_skip _ h

theorem stays_skipTo (k : List CharClass) (h : ∃ cs a, R p cs a) : ∃ cs a, R (copaSkipTo p k) cs a := by
  unfold copaSkipTo
  split
  · exact h
  · exact hR.stays_skip _ h

theorem stays_slurp (g b : List CharClass) (ret : Bytes) (h : ∃ cs a, R p cs a) :
    ∃ cs a, R (copaSlurp g b ret p).2 cs a := by
  induction ret, p using copaSlurp.induct g b with
  | case1 ret p he => rw [copaSlurp, dif_pos he]; exact hR.stays_next h
  | case2 ret p he hg => rw [copaSlurp, dif_neg he, if_pos hg]; exact hR.stays_unread h he
  | case3 ret p he hg hb =>
    rw [copaSlurp, dif_neg he, if_neg hg, if_pos hb]
    exact hR.stays_stop (hR.stays_unread h he)
  | case4 ret p he hg hb ih =>
    rw [copaSlurp, dif_neg he, if_neg hg, if_neg hb]
    exact ih (hR.stays_next h)

theorem stays_slurpTo (g b : List CharClass) (h : ∃ cs a, R p cs a) :
    ∃ cs a, R (copaSlurpTo p g b).2 cs a := by
  unfold copaSlurpTo
  split
  · exact h
  · exact hR.stays_slurp g b [] h

theorem stays_assertAndPass (k : List CharClass) (h : ∃ cs a, R p cs a) :
    ∃ cs a, R (copaAssertAndPass p k).2 cs a := by
  unfold copaAssertAndPass
  split
  · exact h
  · split
    · exact hR.stays_stop (hR.stays_next h)
    · exact hR.stays_next h

theorem stays_slurpQuoted (h : ∃ cs a, R p cs a) : ∃ cs a, R (copaSlurpQuoted p).2 cs a := by
  unfold copaSlurpQuoted
  split
  · exact h
  · simp only
    generalize (if copaCin (copaNext p).1 [.squote] then [CharClass.squote] else [.dquote]) = quote
    have hs := hR.stays_slurpTo quote [] (hR.stays_next h)
    generalize copaSlurpTo (copaNext p).2 quote [] = x at hs ⊢
    obtain ⟨ret, q⟩ := x
    cases ret with
    | none => exact hs
    | some ret =>
      have ha := hR.stays_assertAndPass quote hs
      simp only at ha ⊢
      generalize copaAssertAndPass q quote = y at ha ⊢
      obtain ⟨ok, r⟩ := y
      cases ok with
      | false => exact ha
      | true => exact ha

theorem stays_slurpValue (h : ∃ cs a, R p cs a) : ∃ cs a, R (copaSlurpValue p).2 cs a := by
  have h' := hR.stays_peek (hR.stays_skipWhitespace h)
  unfold copaSlurpValue
  simp only
  split
  · exact hR.stays_slurpQuoted h'
  · rw [copaSlurpLineval]
    split
    · exact h'
    · exact hR.stays_slurpTo _ _ h'

end Stays

end CharStream

end Sighttpd.L3
