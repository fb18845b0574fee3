import Sighttpd.Core.Machine
import Sighttpd.L3Config.CfgEscapes

/-!
# The callers of the scanner

A caller takes characters one by one, looks at the next one, and may push back the one
it was just given. The scanner uses the same place for a byte behind a number.

* `Decodes`: what a caller gets is the decoding of the text, as far as it has gone.
* `caller_step`: with a text that is all right, each call keeps the place in it.
* `exists_not_along`: with any other, some calls go wrong.
* `decoded_iff`: which texts are decoded whatever the calls are.
-/
namespace Sighttpd.L3
open Sighttpd.CString

inductive CopaCall where
  | next
  | peek
  | unread
  deriving DecidableEq, Repr

/-- The character returned by the call just made. -/
inductive Returned where
  | next (c : UInt8)
  | peek (c : UInt8)
  deriving DecidableEq, Repr

def Returned.char : Returned → UInt8
  | next c => c
  | peek c => c

/-- What a caller has taken, and was returned last. -/
structure Caller where
  input : CopaInput
  consumed : Bytes
  returned : Option Returned

def Caller.afterNext (s : Caller) : Caller where
  input := (copaNext s.input).2
  consumed := if (copaNext s.input).1 = eof then s.consumed else s.consumed ++ [(copaNext s.input).1]
  returned := some (.next (copaNext s.input).1)

def Caller.afterPeek (s : Caller) : Caller where
  input := (copaPeek s.input).2
  consumed := s.consumed
  returned := some (.peek (copaPeek s.input).1)

/-- The character just returned is pushed back, as `parser->pushback = c`. -/
def Caller.afterUnread (s : Caller) : Returned → Caller
  | .next c => ⟨s.input.unread c, s.consumed.dropLast, none⟩
  | .peek c => ⟨s.input.unread c, s.consumed, none⟩

/-- Only a character that was just returned is pushed back. -/
def callerStep (s : Caller) : CopaCall → Option Caller
  | .next => some s.afterNext
  | .peek => some s.afterPeek
  | .unread =>
    match s.returned with
    | none => none
    | some r => if r.char = eof then none else some (s.afterUnread r)

def callers : Machine Caller CopaCall := ⟨callerStep⟩

/-- At the first character of the file -/
def callerStart (pieces : List Bytes) : Caller := ⟨cfgStart pieces, [], none⟩

/-- What was taken is the decoding so far, nothing is pushed back when a character has been
returned, the end is returned behind all of it, and a character that was looked at is the
next one. -/
structure Decodes (text : Bytes) (s : Caller) : Prop where
  consumed : s.consumed <+: cDecode text
  next : ∀ c, s.returned = some (.next c) → s.input.pushback = 0 ∧ (c = eof → s.consumed = cDecode text)
  peek : ∀ c, s.returned = some (.peek c) →
    if c = eof then s.consumed = cDecode text else s.consumed ++ [c] <+: cDecode text

/-! ## Texts that are all right -/

/-- The place of a caller in the text. -/
structure CallerInv (text : Bytes) (s : Caller) : Prop where
  place : ∃ cs a, Decoded s.input cs a ∧ cDecode text = s.consumed ++ cs
  next : ∀ c, s.returned = some (.next c) → s.input.pushback = 0 ∧
    if c = eof then s.consumed = cDecode text else c ≠ 0 ∧ ∃ front, s.consumed = front ++ [c]
  peek : ∀ c, s.returned = some (.peek c) →
    if c = eof then s.consumed = cDecode text else c ≠ 0 ∧ s.input.pushback = c

section Inv
variable {text : Bytes} {s s' : Caller} {call : CopaCall}

theorem CallerInv.decodes (h : CallerInv text s) : Decodes text s := by
  obtain ⟨cs, a, hdec, heq⟩ := h.place
  refine ⟨heq ▸ List.prefix_append .., fun c hc => ?_, fun c hc => ?_⟩
  · obtain ⟨hpb, hcase⟩ := h.next c hc
    exact ⟨hpb, fun heof => by rwa [if_pos heof] at hcase⟩
  · have hcase := h.peek c hc
    by_cases heof : c = eof
    · rw [if_pos heof] at hcase ⊢
      exact hcase
    · rw [if_neg heof] at hcase ⊢
      obtain ⟨h0, rfl⟩ := hcase
      obtain ⟨cs', rfl⟩ := List.head?_eq_some_iff.mp (decodedStream.pending hdec h0).1
      exact ⟨cs', by rw [heq, List.append_assoc]; rfl⟩

theorem inv_next (h : CallerInv text s) : CallerInv text s.afterNext := by
  obtain ⟨cs, a, hdec, heq⟩ := h.place
  cases cs with
  | nil =>
    obtain ⟨h1, h2, h3⟩ := decoded_next_nil hdec
    rw [List.append_nil] at heq
    refine ⟨⟨[], false, h2, ?_⟩, fun c hc => ?_, fun c hc => ?_⟩
    · rw [Caller.afterNext, if_pos h1, List.append_nil]
      exact heq
    · obtain rfl : (copaNext s.input).1 = c := by simpa [Caller.afterNext] using hc
      refine ⟨h3, ?_⟩
      rw [if_pos h1, Caller.afterNext, if_pos h1]
      exact heq.symm
    · exact absurd hc (by simp [Caller.afterNext])
  | cons c cs =>
    obtain ⟨h1, h2, h3, h0, hne⟩ := decoded_next_cons hdec
    have heof : ¬ (copaNext s.input).1 = eof := h1 ▸ hne
    have hconsumed : s.afterNext.consumed = s.consumed ++ [c] := by
      rw [Caller.afterNext, if_neg heof, h1]
    refine ⟨⟨cs, a, h2, ?_⟩, fun d hd => ?_, fun d hd => ?_⟩
    · rw [hconsumed, List.append_assoc]
      exact heq
    · obtain rfl : c = d := by simpa [Caller.afterNext, h1] using hd
      refine ⟨h3, ?_⟩
      rw [if_neg hne]
      exact ⟨h0, s.consumed, hconsumed⟩
    · exact absurd hd (by simp [Caller.afterNext])

/-- A character that was looked at is pushed back. -/
theorem copaPeek_pushback {p : CopaInput} (hc : (copaPeek p).1 ≠ eof) :
    (copaPeek p).2.pushback = (copaPeek p).1 := by
  rw [copaPeek] at hc ⊢
  split at hc
  · rw [if_pos ‹_›]
  · rw [if_neg ‹_›]
    split at hc
    · exact absurd rfl hc
    · rw [if_neg ‹_›]
      rfl

theorem inv_peek (h : CallerInv text s) : CallerInv text s.afterPeek := by
  obtain ⟨cs, a, hdec, heq⟩ := h.place
  cases cs with
  | nil =>
    obtain ⟨h1, h2⟩ := decodedStream.peek_nil hdec
    refine ⟨⟨[], false, h2, heq⟩, fun c hc => ?_, fun c hc => ?_⟩
    · exact absurd hc (by simp [Caller.afterPeek])
    · obtain rfl : eof = c := by simpa [Caller.afterPeek, h1] using hc
      rw [List.append_nil] at heq
      rw [if_pos rfl]
      exact heq.symm
  | cons c cs =>
    obtain ⟨-, -, -, h0, hne⟩ := decoded_next_cons hdec
    obtain ⟨h1, h2⟩ := decodedStream.peek_cons hdec hne
    refine ⟨⟨c :: cs, a, h2, heq⟩, fun d hd => ?_, fun d hd => ?_⟩
    · exact absurd hd (by simp [Caller.afterPeek])
    · obtain rfl : c = d := by simpa [Caller.afterPeek, h1] using hd
      rw [if_neg hne]
      exact ⟨h0, by rw [Caller.afterPeek, copaPeek_pushback (h1 ▸ hne), h1]⟩

theorem inv_unread {r : Returned} (h : CallerInv text s) (hret : s.returned = some r)
    (hc : r.char ≠ eof) : CallerInv text (s.afterUnread r) := by
  obtain ⟨cs, a, hdec, heq⟩ := h.place
  cases r with
  | next c =>
    obtain ⟨hpb, hcase⟩ := h.next c hret
    rw [if_neg (show c ≠ eof from hc)] at hcase
    obtain ⟨h0, front, hfront⟩ := hcase
    refine ⟨⟨c :: cs, a, hdec.unread hpb h0 hc, ?_⟩, fun d hd => (by cases hd), fun d hd => (by cases hd)⟩
    rw [heq, Caller.afterUnread, hfront, List.dropLast_concat, List.append_assoc]
    rfl
  | peek c =>
    have hcase := h.peek c hret
    rw [if_neg (show c ≠ eof from hc)] at hcase
    have hsame : s.input.unread c = s.input := by rw [CopaInput.unread, ← hcase.2]
    refine ⟨⟨cs, a, ?_, heq⟩, fun d hd => (by cases hd), fun d hd => (by cases hd)⟩
    rw [Caller.afterUnread, hsame]
    exact hdec

/-- Each call keeps the place. -/
theorem caller_step (h : CallerInv text s) (hstep : callers.step s call = some s') : CallerInv text s' := by
  cases call with
  | next =>
    obtain rfl : s.afterNext = s' := Option.some.inj hstep
    exact inv_next h
  | peek =>
    obtain rfl : s.afterPeek = s' := Option.some.inj hstep
    exact inv_peek h
  | unread =>
    change callerStep s .unread = some s' at hstep
    rw [callerStep] at hstep
    cases hret : s.returned with
    | none => rw [hret] at hstep; exact absurd hstep (by simp)
    | some r =>
      rw [hret] at hstep
      simp only at hstep
      split at hstep
      · exact absurd hstep (by simp)
      · rename_i hc
        obtain rfl := Option.some.inj hstep
        exact inv_unread h hret hc

end Inv

/-! ## Texts in which something goes wrong -/

section Wrong
variable {text r : Bytes} {s : Caller}

theorem not_along_next {calls : List CopaCall} (h : ¬ callers.Along (Decodes text) s.afterNext calls) :
    ¬ callers.Along (Decodes text) s (.next :: calls) :=
  fun hs => h (hs.2 _ rfl)

theorem not_along_now (h : ¬ Decodes text s.afterNext) : ¬ callers.Along (Decodes text) s [.next] :=
  not_along_next h

theorem copaNext_loop (hpb : s.input.pushback = 0) : copaNext s.input = copaNextLoop s.input := by
  rw [copaNext, if_neg (by simpa using hpb)]

theorem not_decodes_end (hc : (copaNext s.input).1 = eof) (htext : s.consumed ≠ cDecode text) :
    ¬ Decodes text s.afterNext := by
  intro h
  have hend := (h.next _ rfl).2 hc
  rw [Caller.afterNext, if_pos hc] at hend
  exact htext hend

theorem not_decodes_pushed (hpb : (copaNext s.input).2.pushback ≠ 0) : ¬ Decodes text s.afterNext :=
  fun h => hpb (h.next _ rfl).1

/-- A character returned is the first of what should come. -/
theorem Decodes.next_char {D : Bytes} (h : Decodes text s.afterNext) (hc : (copaNext s.input).1 ≠ eof)
    (heq : cDecode text = s.consumed ++ D) : ∃ D', D = (copaNext s.input).1 :: D' ∧
      cDecode text = s.afterNext.consumed ++ D' := by
  have hconsumed : s.afterNext.consumed = s.consumed ++ [(copaNext s.input).1] := by
    rw [Caller.afterNext, if_neg hc]
  obtain ⟨D', hD⟩ := h.consumed
  rw [hconsumed, heq, List.append_assoc, List.append_cancel_left_eq] at hD
  exact ⟨D', hD.symm, by rw [hconsumed, heq, ← hD, List.append_assoc]⟩

/-- When there is less to come than should, it is missed at the end at the latest. -/
theorem exists_missed {D : Bytes} (htext : ∀ c ∈ r, c ≠ 0 ∧ c ≠ eof) (hcur : Cursor s.input r)
    (hpb : s.input.pushback = 0) (heq : cDecode text = s.consumed ++ D)
    (hless : (cDecode r).length < D.length) : ∃ calls, ¬ callers.Along (Decodes text) s calls := by
  induction hk : r.length using Nat.strong_induction_on generalizing r D s with
  | _ k ih =>
  have hmissed : s.consumed ≠ cDecode text := by
    rw [heq]
    intro hnil
    rw [List.self_eq_append_right.mp hnil] at hless
    exact absurd hless (Nat.not_lt_zero _)
  by_cases hdec : Decodes text s.afterNext
  · -- one character more, and still less to come
    have hgo : ∀ r', (copaNext s.input).1 ≠ eof → Cursor (copaNext s.input).2 r' →
        (copaNext s.input).2.pushback = 0 → Behind r' r → (cDecode r').length + 1 ≤ (cDecode r).length →
        ∃ calls, ¬ callers.Along (Decodes text) s calls := by
      intro r' hc hcur' hpb' hr hle
      obtain ⟨D', rfl, heq'⟩ := hdec.next_char hc heq
      rw [List.length_cons] at hless
      obtain ⟨calls, hcalls⟩ := ih r'.length (hk ▸ hr.length_lt) (fun c hm => htext c (hr.suffix.mem hm))
        hcur' hpb' heq' (by omega) rfl
      exact ⟨.next :: calls, not_along_next hcalls⟩
    have hout := nextLoop_outcome htext hcur hpb
    rw [← copaNext_loop hpb] at hout
    cases hout with
    | last _ hc => exact absurd hdec (not_decodes_end hc hmissed)
    | char r' _ _ hc hD hcur' hpb' hr => exact hgo r' hc hcur' hpb' hr (by rw [hD, List.length_cons])
    | lost _ hc => exact absurd hdec (not_decodes_end hc hmissed)
    | pushed _ hpb' => exact absurd hdec (not_decodes_pushed hpb')
    | astray r' _ hc hcur' hpb' hr hle => exact hgo r' hc hcur' hpb' hr hle
  · exact ⟨[.next], not_along_now hdec⟩

/-- The calls for one character after the other go wrong. -/
theorem exists_not_along (htext : ∀ c ∈ r, c ≠ 0 ∧ c ≠ eof) (hcur : Cursor s.input r)
    (hpb : s.input.pushback = 0) (heq : cDecode text = s.consumed ++ cDecode r) (hbad : ¬ TextOk r) :
    ∃ calls, ¬ callers.Along (Decodes text) s calls := by
  induction hk : r.length using Nat.strong_induction_on generalizing r s with
  | _ k ih =>
  by_cases hdec : Decodes text s.afterNext
  · have hout := nextLoop_outcome htext hcur hpb
    rw [← copaNext_loop hpb] at hout
    cases hout with
    | last hok => exact absurd hok hbad
    | char r' hok _ hc hD hcur' hpb' hr =>
      obtain ⟨D', hD', heq'⟩ := hdec.next_char hc heq
      rw [hD] at hD'
      obtain ⟨-, rfl⟩ := List.cons.inj hD'
      obtain ⟨calls, hcalls⟩ := ih r'.length (hk ▸ hr.length_lt) (fun c hm => htext c (hr.suffix.mem hm))
        hcur' hpb' heq' (fun h => hbad (hok.mpr h)) rfl
      exact ⟨.next :: calls, not_along_next hcalls⟩
    | lost _ hc hD =>
      refine absurd hdec (not_decodes_end hc fun h => hD ?_)
      exact List.self_eq_append_right.mp (h.trans heq)
    | pushed _ hpb' => exact absurd hdec (not_decodes_pushed hpb')
    | astray r' _ hc hcur' hpb' hr _ hfew =>
      obtain ⟨D', hD', heq'⟩ := hdec.next_char hc heq
      have hless := hfew (by rw [hD']; exact ⟨D', rfl⟩)
      rw [hD', List.length_cons] at hless
      obtain ⟨calls, hcalls⟩ := exists_missed (fun c hm => htext c (hr.suffix.mem hm)) hcur' hpb' heq'
        (by omega)
      exact ⟨.next :: calls, not_along_next hcalls⟩
  · exact ⟨[.next], not_along_now hdec⟩

end Wrong

/-! ## Every text -/

section Texts
variable {pieces : List Bytes}

theorem inv_start (hne : pieces ≠ []) (hfull : ∀ q ∈ pieces, q.length = 8)
    (htext : ∀ c ∈ pieces.flatten, c ≠ 0 ∧ c ≠ eof) (hok : TextOk pieces.flatten) :
    CallerInv pieces.flatten (callerStart pieces) :=
  ⟨⟨_, _, decoded_start hne hfull htext hok, rfl⟩, fun _ hc => (by cases hc), fun _ hc => (by cases hc)⟩

/-- **Decoding.** Whatever calls are made, what the callers get is the decoding of the text, if
and only if its numbers end in time and none is the character that is taken for the end. -/
theorem decoded_iff (hne : pieces ≠ []) (hfull : ∀ q ∈ pieces, q.length = 8)
    (htext : ∀ c ∈ pieces.flatten, c ≠ 0 ∧ c ≠ eof) :
    (∀ calls, callers.Along (Decodes pieces.flatten) (callerStart pieces) calls) ↔
      TextOk pieces.flatten := by
  constructor
  · intro h
    by_contra hbad
    obtain ⟨-, hcur, hpb, -⟩ := cursor_start hne hfull
    obtain ⟨calls, hcalls⟩ := exists_not_along (s := callerStart pieces) htext hcur hpb rfl hbad
    exact hcalls (h calls)
  · intro hok calls
    exact Machine.along_of_inv (fun s hs => hs.decodes) (fun s call s' hs hstep => caller_step hs hstep)
      (inv_start hne hfull htext hok)

/-- A number of two hexadecimal digits, and a named escape. -/
theorem decoded_iff_escapes : TextOk [ascii "a\\x41\\tb"].flatten ∧
    ((∀ calls, callers.Along (Decodes [ascii "a\\x41\\tb"].flatten) (callerStart [ascii "a\\x41\\tb"]) calls) ↔
      TextOk [ascii "a\\x41\\tb"].flatten) := by
  refine ⟨?_, decoded_iff (by simp) (by decide +kernel) (by decide +kernel)⟩
  have htext : [ascii "a\\x41\\tb"].flatten = [97, 92, 120, 52, 49, 92, 116, 98] := by decide +kernel
  rw [htext, textOk_plain _ (by decide), textOk_escape]
  refine ⟨Or.inl (by decide), by decide, ?_⟩
  rw [show (escapeOf [120, 52, 49, 92, 116, 98]).rest = [92, 116, 98] by decide, textOk_escape]
  refine ⟨Or.inl (by decide), by decide, ?_⟩
  rw [show (escapeOf [116, 98]).rest = [98] by decide, textOk_plain _ (by decide)]
  exact textOk_nil

/-- The blank behind an octal number is lost when the number is looked at. -/
theorem octalPeek_loses : ¬ callers.Along (Decodes (ascii "\\101 bcd")) (callerStart [ascii "\\101 bcd"])
    [.peek, .next, .next] := by
  intro h
  have hlast := Machine.along_head (((h.2 _ rfl).2 _ rfl).2 _ rfl)
  have hlost : ¬ (callerStart [ascii "\\101 bcd"]).afterPeek.afterNext.afterNext.consumed <+:
      cDecode (ascii "\\101 bcd") := by decide +kernel
  exact hlost hlast.consumed

end Texts

end Sighttpd.L3
