import Sighttpd.L3Config.CfgStream

/-!
# How a file is cut into reads

The window is refilled when its end has been reached, whatever the last `read(2)`
returned. Behind a read that is shorter than an earlier one the window still holds
bytes of that one, and they are handed out again.

* `delivered_rising`, `delivered_falling`: the window hands out the file when no read
  is shorter than the one before, and something more when one is.
* `cut_independent_iff`: exactly when the calls of `copa_next` return the file, and
  that two such cuttings of a file make the same callbacks.
* `shortRead_repeats`: ten bytes read as eight and two.
-/
namespace Sighttpd.L3

/-- The reads of a file `F`: one to eight bytes each. -/
structure Cutting (F : Bytes) (pieces : List Bytes) : Prop where
  flatten : pieces.flatten = F
  size : ∀ q ∈ pieces, q ≠ [] ∧ q.length ≤ bufferSize

/-- No piece is shorter than the one before; `m` is the length of that one. -/
def Rising (m : Nat) : List Bytes → Prop
  | [] => True
  | q :: pieces => m ≤ q.length ∧ Rising q.length pieces

def decidableRising : (m : Nat) → (pieces : List Bytes) → Decidable (Rising m pieces)
  | _, [] => isTrue trivial
  | m, q :: pieces =>
    have := decidableRising q.length pieces
    inferInstanceAs (Decidable (m ≤ q.length ∧ Rising q.length pieces))

instance (m : Nat) (pieces : List Bytes) : Decidable (Rising m pieces) := decidableRising m pieces

instance : DecidablePred PlainChar := fun _ => inferInstanceAs (Decidable (_ ∧ _ ∧ _))

/-! ## What the window hands out -/

/-- A window that holds `b` and NULs behind it. -/
def filled (b : Bytes) : Bytes := b ++ List.replicate (bufferSize - b.length) 0

theorem filter_filled {b : Bytes} (hb : ∀ c ∈ b, c ≠ 0) : (filled b).filter (· ≠ 0) = b := by
  rw [filled, List.filter_append, List.filter_eq_self.mpr (by simpa using hb),
    List.filter_eq_nil_iff.mpr (by simp), List.append_nil]

/-- A read at least as long as what the window holds replaces all of it. -/
theorem filled_over {b q : Bytes} (hle : b.length ≤ q.length) (hq : q.length ≤ bufferSize) :
    q ++ (filled b).drop q.length = filled q := by
  rw [filled, List.drop_append, List.drop_eq_nil_of_le hle, List.nil_append, List.drop_replicate, filled]
  congr 2
  omega

theorem delivered_rising {pieces : List Bytes} (hsize : ∀ q ∈ pieces, q ≠ [] ∧ q.length ≤ bufferSize)
    (hpl : ∀ q ∈ pieces, ∀ c ∈ q, c ≠ 0) :
    ∀ b : Bytes, Rising b.length pieces →
      delivered (filled b) (pieces.map some) = pieces.flatten := by
  induction pieces with
  | nil => intro b _; rfl
  | cons q pieces ih =>
    intro b hr
    obtain ⟨hq, hsize'⟩ := List.forall_mem_cons.mp hsize
    obtain ⟨hq0, hpl'⟩ := List.forall_mem_cons.mp hpl
    rw [List.map_cons, delivered, filled_over hr.1 hq.2, filter_filled hq0, List.flatten_cons,
      ih hsize' hpl' q hr.2]

theorem length_delivered_ge {pieces : List Bytes} (hpl : ∀ q ∈ pieces, ∀ c ∈ q, c ≠ 0) :
    ∀ w : Bytes, pieces.flatten.length ≤ (delivered w (pieces.map some)).length := by
  induction pieces with
  | nil => intro w; simp
  | cons q pieces ih =>
    intro w
    obtain ⟨hq0, hpl'⟩ := List.forall_mem_cons.mp hpl
    have hrest := ih hpl' (q ++ w.drop q.length)
    rw [List.map_cons, delivered, List.filter_append, List.filter_eq_self.mpr (by simpa using hq0)]
    simp only [List.flatten_cons, List.length_append]
    omega

/-- Behind a shorter read the end of the window is handed out once more. -/
theorem delivered_falling {pieces : List Bytes} (hsize : ∀ q ∈ pieces, q ≠ [] ∧ q.length ≤ bufferSize)
    (hpl : ∀ q ∈ pieces, ∀ c ∈ q, c ≠ 0) :
    ∀ b : Bytes, (∀ c ∈ b, c ≠ 0) → ¬ Rising b.length pieces →
      pieces.flatten.length < (delivered (filled b) (pieces.map some)).length := by
  induction pieces with
  | nil => intro b _ hr; exact absurd trivial hr
  | cons q pieces ih =>
    intro b hb0 hr
    obtain ⟨hq, hsize'⟩ := List.forall_mem_cons.mp hsize
    obtain ⟨hq0, hpl'⟩ := List.forall_mem_cons.mp hpl
    rw [List.map_cons, delivered]
    by_cases hle : b.length ≤ q.length
    · have hr' : ¬ Rising q.length pieces := fun h => hr ⟨hle, h⟩
      have := ih hsize' hpl' q hq0 hr'
      rw [filled_over hle hq.2, filter_filled hq0]
      simp only [List.flatten_cons, List.length_append]
      omega
    · -- the bytes of `b` behind the new read
      have hrest := length_delivered_ge hpl' (q ++ (filled b).drop q.length)
      have htail : (b.drop q.length).length ≤ (((filled b).drop q.length).filter (· ≠ 0)).length := by
        rw [filled, List.drop_append_of_le_length (by omega), List.filter_append,
          List.filter_eq_self.mpr (by simpa using fun c hc => hb0 c (List.mem_of_mem_drop hc)),
          List.length_append]
        exact Nat.le_add_right ..
      rw [List.filter_append, List.filter_eq_self.mpr (by simpa using hq0)]
      simp only [List.flatten_cons, List.length_append, List.length_drop] at htail ⊢
      omega

/-! ## Calls of `copa_next` -/

/-- What the call number `k` of `copa_next` returns, counted from 0. -/
def nthNext (p : CopaInput) : Nat → UInt8
  | 0 => (copaNext p).1
  | k + 1 => nthNext (copaNext p).2 k

theorem nthNext_scan (k : Nat) : ∀ {p : CopaInput} {a : Bool} {cs : Bytes},
    Scan p cs a → nthNext p k = cs.getD k eof := by
  induction k with
  | zero =>
    intro p a cs h
    cases cs with
    | nil => exact (scan_next_nil h).1
    | cons c cs => exact (scan_next_cons h).1
  | succ k ih =>
    intro p a cs h
    cases cs with
    | nil => exact ih (scan_next_nil h).2
    | cons c cs => exact ih (scan_next_cons h).2.1

/-- The parser when `copa_read_fd` starts to read lines. -/
def cfgStart (pieces : List Bytes) : CopaInput := (copaRefill (.init (pieces.map some))).2

theorem mem_delivered {c : UInt8} {pieces : List Bytes} :
    ∀ {w : Bytes}, c ∈ delivered w (pieces.map some) → c ≠ 0 ∧ (c ∈ w ∨ c ∈ pieces.flatten) := by
  induction pieces with
  | nil => intro w h; exact absurd h (by simp [delivered])
  | cons q pieces ih =>
    intro w h
    rw [List.map_cons, delivered, List.mem_append] at h
    rcases h with h | h
    · obtain ⟨hm, h0⟩ := List.mem_filter.mp h
      refine ⟨by simpa using h0, ?_⟩
      rcases List.mem_append.mp hm with hm | hm
      · exact .inr (by simp [hm])
      · exact .inl (List.mem_of_mem_drop hm)
    · obtain ⟨h0, hm⟩ := ih h
      refine ⟨h0, ?_⟩
      rcases hm with hm | hm
      · rcases List.mem_append.mp hm with hm | hm
        · exact .inr (by simp [hm])
        · exact .inl (List.mem_of_mem_drop hm)
      · exact .inr (by rw [List.flatten_cons]; exact List.mem_append_right _ hm)

/-- The window starts with NULs, which are no characters. -/
theorem mem_start {c : UInt8} {pieces : List Bytes} (hc : c ∈ delivered (filled []) (pieces.map some)) :
    c ≠ 0 ∧ c ∈ pieces.flatten := by
  obtain ⟨h0, hm⟩ := mem_delivered hc
  rcases hm with hm | hm
  · have hz : c = 0 := (by simpa [filled] using hm : ¬ bufferSize = 0 ∧ c = 0).2
    exact absurd hz h0
  · exact ⟨h0, hm⟩

theorem hands_start {pieces : List Bytes} (hne : pieces ≠ [])
    (hsize : ∀ q ∈ pieces, q ≠ [] ∧ q.length ≤ bufferSize) (hpl : ∀ c ∈ pieces.flatten, c ≠ 92) :
    (copaRefill (.init (pieces.map some))).1 = true ∧
      Hands (cfgStart pieces) (delivered (filled []) (pieces.map some)) true := by
  obtain ⟨q, pieces, rfl⟩ := List.exists_cons_of_ne_nil hne
  obtain ⟨hq, hsize'⟩ := List.forall_mem_cons.mp hsize
  have hrefill : copaRefill (.init ((q :: pieces).map some)) =
      (true, { CopaInput.init (pieces.map some) with
        readBuffer := q ++ (filled []).drop q.length, nread := q.length }) := by
    simp only [copaRefill, CopaInput.init, List.map_cons, if_neg hq.1]
    rfl
  rw [cfgStart, hrefill]
  refine ⟨rfl, ?_, fun r hr => ?_, rfl, rfl, rfl, ?_, ?_, (by decide : (0 : UInt8) ≠ eof), rfl⟩
  · simp only [List.length_append, List.length_drop, filled, List.length_replicate, List.length_nil]
    omega
  · obtain ⟨x, hx, rfl⟩ := List.mem_map.mp hr
    exact ⟨x, rfl, hsize' x hx⟩
  · simp [CopaInput.chars, CopaInput.rest, CopaInput.init, delivered]
  · exact fun c hc => hpl c (mem_start (by simpa [CopaInput.rest, CopaInput.init, delivered] using hc)).2

theorem refill_start {pieces : List Bytes} (hne : pieces ≠ [])
    (hsize : ∀ q ∈ pieces, q ≠ [] ∧ q.length ≤ bufferSize) (hpl : ∀ c ∈ pieces.flatten, PlainChar c) :
    (copaRefill (.init (pieces.map some))).1 = true ∧
      Scan (cfgStart pieces) (delivered (filled []) (pieces.map some)) true := by
  obtain ⟨h1, h2⟩ := hands_start hne hsize fun c hc => (hpl c hc).2.1
  exact ⟨h1, h2.scan fun c hc => hpl c (mem_start hc).2⟩

theorem eq_of_getD_eof {F D : Bytes} (hF : ∀ c ∈ F, c ≠ eof) (hD : ∀ c ∈ D, c ≠ eof)
    (h : ∀ k, D.getD k eof = F.getD k eof) : D = F := by
  induction D generalizing F with
  | nil =>
    cases F with
    | nil => rfl
    | cons c F => exact absurd (h 0).symm (hF c (List.mem_cons_self ..))
  | cons d D ih =>
    cases F with
    | nil => exact absurd (h 0) (hD d (List.mem_cons_self ..))
    | cons c F =>
      obtain ⟨-, hF'⟩ := List.forall_mem_cons.mp hF
      obtain ⟨-, hD'⟩ := List.forall_mem_cons.mp hD
      have h0 : d = c := h 0
      rw [h0, ih hF' hD' fun k => h (k + 1)]

theorem delivers_iff {F : Bytes} {pieces : List Bytes} (hne : F ≠ []) (hpl : ∀ c ∈ F, PlainChar c)
    (hc : Cutting F pieces) : (∀ k, nthNext (cfgStart pieces) k = F.getD k eof) ↔ Rising 0 pieces := by
  obtain ⟨rfl, hsize⟩ := hc
  have hpne : pieces ≠ [] := by
    intro heq
    subst heq
    exact hne rfl
  have hscan := (refill_start hpne hsize hpl).2
  have hpl0 : ∀ q ∈ pieces, ∀ c ∈ q, c ≠ 0 :=
    fun q hq c hcq => (hpl c (List.mem_flatten.mpr ⟨q, hq, hcq⟩)).1
  constructor
  · intro h
    by_contra hr
    have hlt := delivered_falling hsize hpl0 [] (by simp) hr
    have heq : delivered (filled []) (pieces.map some) = pieces.flatten := eq_of_getD_eof
      (fun c hc => (hpl c hc).2.2) (fun c hc => (hscan.plain c hc).2.2) fun k => by
        rw [← h k, nthNext_scan k hscan]
    rw [heq] at hlt
    exact Nat.lt_irrefl _ hlt
  · intro hr k
    rw [nthNext_scan k hscan, delivered_rising hsize hpl0 [] hr]

theorem readFd_cut {σ : Type} (cb : Callbacks σ) (user : σ) {F : Bytes} {pieces pieces' : List Bytes}
    (hne : F ≠ []) (hpl : ∀ c ∈ F, PlainChar c) (hc : Cutting F pieces) (hc' : Cutting F pieces')
    (hr : Rising 0 pieces) (hr' : Rising 0 pieces') :
    (copaReadFd cb (pieces.map some) user).1 = (copaReadFd cb (pieces'.map some) user).1 ∧
      TwinParser (copaReadFd cb (pieces.map some) user).2 (copaReadFd cb (pieces'.map some) user).2 := by
  have hstart : ∀ {pieces : List Bytes}, Cutting F pieces → Rising 0 pieces →
      (copaRefill (.init (pieces.map some))).1 = true ∧ Scan (cfgStart pieces) F true := by
    intro pieces hc hr
    obtain ⟨rfl, hsize⟩ := hc
    have hpne : pieces ≠ [] := by
      intro heq
      subst heq
      exact hne rfl
    have hpl0 : ∀ q ∈ pieces, ∀ c ∈ q, c ≠ 0 :=
      fun q hq c hcq => (hpl c (List.mem_flatten.mpr ⟨q, hq, hcq⟩)).1
    have h := refill_start hpne hsize hpl
    rwa [delivered_rising hsize hpl0 [] hr] at h
  obtain ⟨h1, h2⟩ := hstart hc hr
  obtain ⟨h1', h2'⟩ := hstart hc' hr'
  have hloop := twin_loop cb _ _ (TwinParser.mk ⟨F, true, h2, h2'⟩ .ok user [])
  rw [readFd_status cb h1, readFd_status cb h1', readFd_loop, readFd_loop, ← cfgStart, ← cfgStart]
  generalize copaLoop cb ⟨cfgStart pieces, .ok, user, []⟩ = p at *
  generalize copaLoop cb ⟨cfgStart pieces', .ok, user, []⟩ = p' at *
  obtain ⟨h, s, u, t⟩ := hloop
  exact ⟨rfl, .mk h s u t⟩

/-- **Short reads.** The calls of `copa_next` return the bytes of a file, and then -1
for ever, exactly when no `read(2)` returns fewer bytes than the one before; and
`copa_read_fd` does the same for any two such cuttings of a file. -/
theorem cut_independent_iff {F : Bytes} (hne : F ≠ []) (hpl : ∀ c ∈ F, PlainChar c) :
    (∀ pieces, Cutting F pieces →
      ((∀ k, nthNext (cfgStart pieces) k = F.getD k eof) ↔ Rising 0 pieces)) ∧
    ∀ (σ : Type) (cb : Callbacks σ) (user : σ) (pieces pieces' : List Bytes),
      Cutting F pieces → Cutting F pieces' → Rising 0 pieces → Rising 0 pieces' →
      (copaReadFd cb (pieces.map some) user).1 = (copaReadFd cb (pieces'.map some) user).1 ∧
      (copaReadFd cb (pieces.map some) user).2.user = (copaReadFd cb (pieces'.map some) user).2.user ∧
      (copaReadFd cb (pieces.map some) user).2.trace =
        (copaReadFd cb (pieces'.map some) user).2.trace := by
  refine ⟨fun pieces hc => delivers_iff hne hpl hc, fun σ cb user pieces pieces' hc hc' hr hr' => ?_⟩
  obtain ⟨h1, h2⟩ := readFd_cut cb user hne hpl hc hc' hr hr'
  refine ⟨h1, ?_⟩
  generalize (copaReadFd cb (pieces.map some) user).2 = p at h2 ⊢
  generalize (copaReadFd cb (pieces'.map some) user).2 = p' at h2 ⊢
  obtain ⟨h, s, u, t⟩ := h2
  exact ⟨rfl, rfl⟩

theorem cut_independent_growing :
    nthNext (cfgStart [ascii "a", ascii " bc", ascii "d\ne"]) 3 = 99 ∧
      nthNext (cfgStart [ascii "a", ascii " bc", ascii "d\ne"]) 7 = eof := by
  have hpl : ∀ c ∈ ascii "a bcd\ne", PlainChar c := by decide
  have hread := ((cut_independent_iff (by decide) hpl).1 [ascii "a", ascii " bc", ascii "d\ne"]
    ⟨by decide, by decide⟩).mpr (by decide)
  exact ⟨hread 3, hread 7⟩

/-- **A short read.** Of ten bytes read as eight and two, the third to the eighth are
handed out twice. -/
theorem shortRead_repeats :
    ¬ ∀ (F : Bytes) (pieces : List Bytes), F ≠ [] → (∀ c ∈ F, PlainChar c) → Cutting F pieces →
      ∀ k, nthNext (cfgStart pieces) k = F.getD k eof := by
  intro h
  have h10 := h (ascii "abcdefghij") [ascii "abcdefgh", ascii "ij"] (by decide) (by decide)
    ⟨by decide, by decide⟩ 10
  exact absurd h10 (by decide +kernel)

end Sighttpd.L3
