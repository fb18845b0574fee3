import Sighttpd.Core.CString
import Sighttpd.Core.Loop

/-!
# Lines of a buffer

The loop that cuts a buffer into lines: as long as there is no NUL at `p`, `strchr` looks for
a newline, a NUL takes its place, the line is handed on, and `p` is set behind it. `strchr`
stops at a NUL and nowhere else; a buffer without one is left.

* `lineLoop_ends`: a round for every byte and one more are enough.
* `lineLoop_holds`: on a string the loop hands on its lines, and looks at no byte behind the NUL.
* `lineLoop_invariant`: what the lines preserve holds of the result.
* `lineLoop_no_nul`: without a NUL it does not come to an end in the buffer.
-/
namespace Sighttpd
namespace Lines
open CString
variable {σ ε : Type}

/-- The lines of a text, as far as a newline ends them. -/
def textLines (t : Bytes) : List Bytes := (t.splitOn 10).dropLast

theorem textLines_last {t : Bytes} (h : 10 ∉ t) : textLines t = [] := by
  rw [textLines, List.splitOn_eq_singleton h]
  rfl

theorem textLines_cons {x : Bytes} (h : 10 ∉ x) (y : Bytes) :
    textLines (x ++ 10 :: y) = x :: textLines y := by
  rw [textLines, List.splitOn_append_cons_self_of_not_mem h,
    List.dropLast_cons_of_ne_nil (List.splitOn_ne_nil 10 y)]
  rfl

/-- A text that ends in a newline keeps its lines in front of another. -/
theorem textLines_append (x y : Bytes) : textLines (x ++ 10 :: y) = x.splitOn 10 ++ textLines y := by
  rw [textLines, List.splitOn_append_cons_self, List.dropLast_append_of_ne_nil (List.splitOn_ne_nil 10 y)]
  rfl

theorem textLines_ended (x : Bytes) : textLines (x ++ [10]) = x.splitOn 10 := by
  rw [textLines_append, textLines_last (by simp), List.append_nil]

/-- The lines of a text in front of one without newlines. -/
theorem mem_splitOn_front {q b l : Bytes} (hb : 10 ∉ b) (h : l ∈ (q ++ b).splitOn 10) :
    ∃ p : Bytes, (∀ c ∈ p, c ∈ q) ∧ (l = p ++ b ∨ l = p) := by
  by_cases hq : 10 ∈ q
  · obtain ⟨x, y, rfl, hx⟩ := List.eq_append_cons_of_mem hq
    rw [List.append_assoc, List.cons_append, List.splitOn_append_cons_self_of_not_mem hx,
      List.mem_cons] at h
    rcases h with rfl | h
    · exact ⟨l, fun c hc => List.mem_append_left _ hc, .inr rfl⟩
    · obtain ⟨p, hp, hl⟩ := mem_splitOn_front hb h
      exact ⟨p, fun c hc => List.mem_append_right _ (List.mem_cons_of_mem _ (hp c hc)), hl⟩
  · rw [List.splitOn_eq_singleton (by simp [hq, hb]), List.mem_singleton] at h
    exact ⟨q, fun c hc => hc, .inl h⟩
termination_by q.length

/-- The lines of a text whose newlines are all in `q`. -/
theorem mem_splitOn_between {a q b l : Bytes} (ha : 10 ∉ a) (hb : 10 ∉ b) (hq : 10 ∈ q)
    (h : l ∈ (a ++ (q ++ b)).splitOn 10) :
    ∃ p : Bytes, (∀ c ∈ p, c ∈ q) ∧ (l = a ++ p ∨ l = p ++ b ∨ l = p) := by
  obtain ⟨x, y, rfl, hx⟩ := List.eq_append_cons_of_mem hq
  have hfirst : a ++ (x ++ 10 :: y ++ b) = (a ++ x) ++ 10 :: (y ++ b) := by simp
  rw [hfirst, List.splitOn_append_cons_self_of_not_mem (by simp [ha, hx]), List.mem_cons] at h
  rcases h with rfl | h
  · exact ⟨x, fun c hc => List.mem_append_left _ hc, .inl rfl⟩
  · obtain ⟨p, hp, hl⟩ := mem_splitOn_front hb h
    exact ⟨p, fun c hc => List.mem_append_right _ (List.mem_cons_of_mem _ (hp c hc)), .inr hl⟩

/-- One round, with the buffer, `p` and what the lines have made so far. The loop is left with
the end of the bytes that were looked at; with `outside` when it leaves the buffer. -/
def lineRound (body : σ → Bytes → Except ε σ) (outside : ε) (v : Bytes × Nat × σ) :
    Bytes × Nat × σ ⊕ Nat × Except ε σ :=
  let (buf, p, s) := v
  match buf[p]? with
  | none => .inr (p + 1, .error outside)
  | some c =>
    if c = 0 then .inr (p + 1, .ok s)
    else
      let q := p + strcspn (buf.drop p) [0, 10]
      match buf[q]? with
      | none => .inr (q + 1, .error outside)
      | some c =>
        if c = 0 then .inr (q + 1, .ok s)
        else
          let buf := memset buf q 1 0
          match body s (strAt buf p) with
          | .error e => .inr (q + 1, .error e)
          | .ok s => .inl (buf, q + 1, s)

def lineLoop (body : σ → Bytes → Except ε σ) (outside : ε) (buf : Bytes) (s : σ) :
    Option (Nat × Except ε σ) :=
  Loop.run (lineRound body outside) (buf.length + 1) (buf, 0, s)

section Round
variable {body : σ → Bytes → Except ε σ} {outside : ε} {buf : Bytes} {p : Nat}

/-- No newline: `strchr` comes to the NUL. -/
theorem lineRound_last {t : Bytes} (h : HoldsStr buf p t) (ht : 10 ∉ t) (s : σ) :
    lineRound body outside (buf, p, s) = .inr (p + t.length + 1, .ok s) := by
  obtain ⟨h0, post, hd⟩ := h
  have hget (k : Nat) : buf[p + k]? = (t ++ 0 :: post)[k]? := by rw [← List.getElem?_drop, hd]
  have hspan : strcspn (t ++ 0 :: post) [0, 10] = t.length := by
    apply strcspn_append
    · intro c hc hmem
      rcases List.mem_pair.1 hmem with rfl | rfl
      · exact h0 hc
      · exact ht hc
    · intro c u hu
      rw [← (List.cons.inj hu).1]
      exact List.mem_cons_self
  have hend : buf[p + t.length]? = some 0 := by
    rw [hget, List.getElem?_append_right le_rfl, Nat.sub_self]
    rfl
  unfold lineRound
  cases t with
  | nil =>
    have hfirst : buf[p]? = some 0 := hend
    simp only [hfirst, if_true]
    rfl
  | cons c t =>
    have hfirst : buf[p]? = some c := hget 0
    have hne : c ≠ 0 := fun hc => h0 (hc ▸ List.mem_cons_self)
    simp only [hfirst, if_neg hne, hd, hspan, hend, if_true]

/-- A line is handed on, and the rest is what comes behind it. -/
theorem lineRound_line {x y : Bytes} (h : HoldsStr buf p (x ++ 10 :: y)) (hx : 10 ∉ x) (s : σ) :
    ∃ buf' : Bytes, HoldsStr buf' (p + x.length + 1) y ∧
      lineRound body outside (buf, p, s) = match body s x with
        | .error e => .inr (p + x.length + 1, .error e)
        | .ok s => .inl (buf', p + x.length + 1, s) := by
  have hline : HoldsStr (memset buf (p + x.length) 1 0) p x :=
    HoldsStr.memset (y := [10]) h (fun hnil => nomatch hnil)
  refine ⟨memset buf (p + x.length) 1 0, HoldsStr.memset_behind (y := [10]) 0 h, ?_⟩
  obtain ⟨h0, post, hd⟩ := h
  rw [List.append_assoc, List.cons_append] at hd
  have hget (k : Nat) : buf[p + k]? = (x ++ 10 :: (y ++ 0 :: post))[k]? := by
    rw [← List.getElem?_drop, hd]
  have hspan : strcspn (x ++ 10 :: (y ++ 0 :: post)) [0, 10] = x.length := by
    apply strcspn_append
    · intro c hc hmem
      rcases List.mem_pair.1 hmem with rfl | rfl
      · exact h0 (List.mem_append_left _ hc)
      · exact hx hc
    · intro c u hu
      rw [← (List.cons.inj hu).1]
      exact List.mem_cons_of_mem _ List.mem_cons_self
  have hend : buf[p + x.length]? = some 10 := by
    rw [hget, List.getElem?_append_right le_rfl, Nat.sub_self]
    rfl
  obtain ⟨c, hfirst, hne⟩ : ∃ c, buf[p]? = some c ∧ c ≠ 0 := by
    cases x with
    | nil => exact ⟨10, hend, by decide⟩
    | cons c x => exact ⟨c, hget 0, fun hc => h0 (hc ▸ List.mem_cons_self)⟩
  have h10 : (10 : UInt8) ≠ 0 := by decide
  unfold lineRound
  simp only [hfirst, if_neg hne, hd, hspan, hend, if_neg h10, hline.strAt_eq]

/-- A round that goes on has passed a newline. -/
theorem lineRound_goes_on {buf' : Bytes} {p' : Nat} {s s' : σ}
    (h : lineRound body outside (buf, p, s) = .inl (buf', p', s')) :
    ∃ q, p ≤ q ∧ q < buf.length ∧ buf' = memset buf q 1 0 ∧ p' = q + 1 := by
  unfold lineRound at h
  dsimp only at h
  split at h
  · exact nomatch h
  · split at h
    · exact nomatch h
    · split at h
      · exact nomatch h
      · rename_i hq
        split at h
        · exact nomatch h
        · split at h
          · exact nomatch h
          · obtain ⟨rfl, rfl, -⟩ := by simpa using h
            exact ⟨_, Nat.le_add_right _ _, (List.getElem?_eq_some_iff.1 hq).1, rfl, rfl⟩

/-- What a line preserves, a round does. -/
theorem lineRound_invariant {I : σ → Prop} (hbody : ∀ s line s', body s line = .ok s' → I s → I s')
    {s : σ} (hI : I s) :
    (∀ v, lineRound body outside (buf, p, s) = .inl v → I v.2.2) ∧
      ∀ looked s', lineRound body outside (buf, p, s) = .inr (looked, .ok s') → I s' := by
  unfold lineRound
  dsimp only
  split
  · simp
  · split
    · simp [hI]
    · split
      · simp
      · split
        · simp [hI]
        · split
          · simp
          · rename_i hok
            simpa using hbody _ _ _ hok hI

/-- Without a NUL the loop is not left in good order. -/
theorem lineRound_leaves {s s' : σ} {looked : Nat} (h0 : 0 ∉ buf.drop p) :
    lineRound body outside (buf, p, s) ≠ .inr (looked, .ok s') := by
  have hzero {q : Nat} {c : UInt8} (hq : p ≤ q) (hget : buf[q]? = some c) : c ≠ 0 := by
    intro hc
    apply h0
    rw [hc, ← Nat.add_sub_cancel' hq, ← List.getElem?_drop] at hget
    exact List.mem_of_getElem? hget
  intro h
  unfold lineRound at h
  dsimp only at h
  split at h
  · exact nomatch h
  · rename_i hp
    rw [if_neg (hzero le_rfl hp)] at h
    split at h
    · exact nomatch h
    · rename_i hq
      rw [if_neg (hzero (Nat.le_add_right _ _) hq)] at h
      split at h <;> exact nomatch h

end Round

/-! ## The whole loop -/

section Run
variable (body : σ → Bytes → Except ε σ) (outside : ε)

theorem run_ends (n : Nat) {buf : Bytes} {p : Nat} (s : σ) (hp : p ≤ buf.length)
    (hn : buf.length - p < n) : ∃ r, Loop.run (lineRound body outside) n (buf, p, s) = some r := by
  induction n generalizing buf p s with
  | zero => exact absurd hn (Nat.not_lt_zero _)
  | succ n ih =>
    rw [Loop.run_succ]
    cases e : lineRound body outside (buf, p, s) with
    | inr r => exact ⟨r, rfl⟩
    | inl v =>
      obtain ⟨buf', p', s'⟩ := v
      obtain ⟨q, hpq, hq, rfl, rfl⟩ := lineRound_goes_on e
      have hlength : (memset buf q 1 0).length = buf.length := by
        simp only [memset, List.length_append, List.length_take, List.length_replicate,
          List.length_drop]
        omega
      exact ih s' (by omega) (by omega)

/-- **A string.** Its lines are handed on, and nothing behind its NUL is looked at. -/
theorem run_holds (n : Nat) {buf t : Bytes} {p : Nat} (s : σ) (h : HoldsStr buf p t)
    (hn : t.length < n) :
    ∃ looked, Loop.run (lineRound body outside) n (buf, p, s) =
      some (looked, (textLines t).foldlM body s) ∧ looked ≤ p + t.length + 1 := by
  induction n generalizing buf p t s with
  | zero => exact absurd hn (Nat.not_lt_zero _)
  | succ n ih =>
    rw [Loop.run_succ]
    by_cases ht : 10 ∈ t
    · obtain ⟨x, y, rfl, hx⟩ := List.eq_append_cons_of_mem ht
      obtain ⟨buf', hrest, hround⟩ := lineRound_line h hx s
      rw [List.length_append, List.length_cons] at hn ⊢
      rw [hround, textLines_cons hx, List.foldlM_cons]
      cases body s x with
      | error e => exact ⟨p + x.length + 1, rfl, by omega⟩
      | ok s' =>
        obtain ⟨looked, hrun, hle⟩ := ih s' hrest (by omega)
        exact ⟨looked, hrun, by omega⟩
    · rw [lineRound_last h ht, textLines_last ht]
      exact ⟨p + t.length + 1, rfl, le_rfl⟩

/-- Without a NUL something goes wrong before the loop is left. -/
theorem run_no_nul (n : Nat) {buf : Bytes} {p : Nat} {s s' : σ} {looked : Nat}
    (h0 : 0 ∉ buf.drop p) :
    Loop.run (lineRound body outside) n (buf, p, s) ≠ some (looked, .ok s') := by
  induction n generalizing buf p s with
  | zero => exact fun h => nomatch h
  | succ n ih =>
    rw [Loop.run_succ]
    cases e : lineRound body outside (buf, p, s) with
    | inr r =>
      intro hr
      rw [Option.some.inj hr] at e
      exact lineRound_leaves h0 e
    | inl v =>
      obtain ⟨buf', p', s'⟩ := v
      obtain ⟨q, hpq, hq, rfl, rfl⟩ := lineRound_goes_on e
      have hdrop : (memset buf q 1 0).drop (q + 1) = buf.drop (q + 1) :=
        List.drop_left' (by simp; omega)
      apply ih
      rw [hdrop]
      intro hmem
      apply h0
      rw [show q + 1 = p + (q + 1 - p) by omega, ← List.drop_drop] at hmem
      exact List.mem_of_mem_drop hmem

theorem lineLoop_ends (buf : Bytes) (s : σ) : ∃ r, lineLoop body outside buf s = some r :=
  run_ends body outside _ s (Nat.zero_le _) (by omega)

theorem lineLoop_holds {buf t : Bytes} (h : HoldsStr buf 0 t) (s : σ) :
    ∃ looked, lineLoop body outside buf s = some (looked, (textLines t).foldlM body s) ∧
      looked ≤ t.length + 1 := by
  have hlt : t.length < buf.length + 1 := by
    obtain ⟨-, post, hd⟩ := h
    rw [List.drop_zero] at hd
    simp only [hd, List.length_append]
    omega
  obtain ⟨looked, hrun, hle⟩ := run_holds body outside _ s h hlt
  exact ⟨looked, hrun, by omega⟩

variable {body outside} in
/-- Whatever the buffer holds. -/
theorem lineLoop_invariant {I : σ → Prop} (hbody : ∀ s line s', body s line = .ok s' → I s → I s')
    {buf : Bytes} {s s' : σ} {looked : Nat} (h : lineLoop body outside buf s = some (looked, .ok s'))
    (hI : I s) : I s' := by
  have hround : ∀ v : Bytes × Nat × σ, I v.2.2 →
      (∀ v', lineRound body outside v = .inl v' → I v'.2.2) ∧
        ∀ looked s', lineRound body outside v = .inr (looked, .ok s') → I s' :=
    fun _ => lineRound_invariant hbody
  exact Loop.run_invariant (I := fun v => I v.2.2) (Q := fun r => ∀ s', r.2 = .ok s' → I s')
    (fun v v' hv hI => (hround v hI).1 v' hv)
    (fun v r hr hI s' hs => (hround v hI).2 r.1 s' (by rw [hr, ← hs])) h hI s' rfl

theorem lineLoop_no_nul {buf : Bytes} (h0 : 0 ∉ buf) {s s' : σ} {looked : Nat} :
    lineLoop body outside buf s ≠ some (looked, .ok s') :=
  run_no_nul body outside _ h0

end Run

end Lines
end Sighttpd
