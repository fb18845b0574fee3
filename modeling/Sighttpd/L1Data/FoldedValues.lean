import Sighttpd.L1Data.ParamsWeight

/-!
# White space inside header values

A run of linear white space is blanks and then line breaks with blanks behind them.
`headers_canonicalize` stores one SP for the blanks and one for each line break, so
that a run is a single SP only where it has one of these.

Fields are written with holes: between two words stands a run that is `kept`, or one
that is `replaced` by another.

* `canonLoop_lws`: how many SP are stored for a run.
* `parse_fields`: the parameters of a header block with any runs.
* `folded_iff`: replacing runs leaves the parameters those of single blanks exactly when
  every run that matters is stored as one SP. A run does not matter where only colons
  and white space stand in front of it in the value.
* `foldedBehindBlank`: a blank in front of a line break.
-/
namespace Sighttpd.L1
open Sighttpd.CString

/-! ## Runs -/

/-- Blanks, and line breaks with blanks behind them. -/
structure Lws where
  blanks : Bytes
  folds : List Bytes
  deriving DecidableEq, Repr

def Lws.text (r : Lws) : Bytes := r.blanks ++ r.folds.flatMap (crlf ++ ·)

structure Lws.Ok (r : Lws) : Prop where
  blanks : ∀ c ∈ r.blanks, c ∈ spht
  folds : ∀ b ∈ r.folds, b ≠ [] ∧ ∀ c ∈ b, c ∈ spht

/-- The run is not empty. -/
def Lws.Nonempty (r : Lws) : Prop := r.blanks ≠ [] ∨ r.folds ≠ []

/-- How many SP are stored for it. -/
def Lws.spaces (r : Lws) : Nat := (if r.blanks = [] then 0 else 1) + r.folds.length

/-- Blanks alone, or one line break without blanks in front. -/
def Lws.OneStep (r : Lws) : Prop := r.folds = [] ∨ (r.blanks = [] ∧ r.folds.length = 1)

def Lws.single : Lws := ⟨ascii " ", []⟩

def sp (n : Nat) : Bytes := List.replicate n 32

theorem sp_succ (n : Nat) : sp (n + 1) = ascii " " ++ sp n := rfl

theorem Lws.spaces_pos {r : Lws} (h : r.Nonempty) : 1 ≤ r.spaces := by
  unfold Lws.spaces
  rcases h with h | h
  · rw [if_neg h]
    omega
  · have := List.length_pos_iff.mpr h
    omega

theorem Lws.spaces_eq_one {r : Lws} (h : r.Nonempty) : r.spaces = 1 ↔ r.OneStep := by
  unfold Lws.spaces Lws.OneStep
  by_cases hb : r.blanks = []
  · have hf := h.resolve_left (fun hn => hn hb)
    simp [hb, hf]
  · simp [hb, List.length_eq_zero_iff]

theorem canonLoop_folds {fs : List Bytes} (hf : ∀ b ∈ fs, b ≠ [] ∧ ∀ c ∈ b, c ∈ spht) {c : Bytes}
    (hc : ∀ a t, c = a :: t → a ∉ spht) (n : Bytes) :
    canonLoop (fs.flatMap (crlf ++ ·) ++ c) n = canonLoop c (n ++ sp fs.length) := by
  induction fs generalizing n with
  | nil => simp [sp]
  | cons b fs ih =>
    obtain ⟨⟨hne, hb⟩, hfs⟩ := List.forall_mem_cons.mp hf
    have hhead : ∀ a t, fs.flatMap (crlf ++ ·) ++ c = a :: t → a ∉ spht := by
      cases fs with
      | nil => exact hc
      | cons d fs => exact fun a t he => (List.cons.inj he).1 ▸ by decide
    rw [List.flatMap_cons, List.append_assoc, List.append_assoc,
      canonLoop_fold (by decide) (by decide) (by decide) hne hb hhead, ih hfs, List.append_assoc,
      List.length_cons, sp_succ]

/-- One SP for the blanks of a run, and one for each line break. -/
theorem canonLoop_lws {r : Lws} (hr : r.Ok) {c : Bytes} (hc : ∀ a t, c = a :: t → a ∉ spht)
    (n : Bytes) : canonLoop (r.text ++ c) n = canonLoop c (n ++ sp r.spaces) := by
  have hhead : ∀ a t, r.folds.flatMap (crlf ++ ·) ++ c = a :: t → a ∉ spht := by
    cases r.folds with
    | nil => exact hc
    | cons d fs => exact fun a t he => (List.cons.inj he).1 ▸ by decide
  rw [Lws.text, List.append_assoc]
  by_cases hb : r.blanks = []
  · rw [hb, List.nil_append, canonLoop_folds hr.folds hc, Lws.spaces, if_pos hb, Nat.zero_add]
  · rw [canonLoop_blanks hb hr.blanks hhead, canonLoop_folds hr.folds hc, Lws.spaces, if_neg hb,
      List.append_assoc, Nat.add_comm 1, sp_succ]

/-! ## Fields with holes -/

/-- A run between two words of a value. -/
inductive Gap where
  | kept (r : Lws)
  | replaced (r r' : Lws)
  deriving DecidableEq, Repr

/-- The two texts, and the one with a single SP for every replaced run. -/
inductive Side where
  | before
  | after
  | single
  deriving DecidableEq, Repr

def Gap.run : Side → Gap → Lws
  | _, .kept r => r
  | .before, .replaced r _ => r
  | .after, .replaced _ r' => r'
  | .single, .replaced _ _ => Lws.single

/-- A header field: its name, and a value of words. -/
structure Field where
  name : Bytes
  lead : Lws
  body : List (Bytes × Gap)    -- each word with the run behind it
  last : Bytes
  trail : Lws
  deriving DecidableEq, Repr

def Gap.Ok : Gap → Prop
  | .kept r => r.Ok ∧ r.Nonempty
  | .replaced r r' => (r.Ok ∧ r.Nonempty) ∧ r'.Ok ∧ r'.Nonempty

structure Field.Ok (f : Field) : Prop where
  named : f.name ≠ []
  name : ∀ c ∈ f.name, c ∉ ascii ": \t\r\n"
  lead : f.lead.Ok
  body : ∀ w ∈ f.body, (w.1 ≠ [] ∧ ∀ c ∈ w.1, c ∉ lws) ∧ w.2.Ok
  last : ∀ c ∈ f.last, c ∉ lws
  trail : f.trail.Ok
  empty : f.last = [] → f.body = [] ∧ f.trail = ⟨[], []⟩

/-- The words with what `show` makes of the runs between them. -/
def words (run : Lws → Bytes) (side : Side) (body : List (Bytes × Gap)) (last : Bytes) : Bytes :=
  body.flatMap (fun w => w.1 ++ run (w.2.run side)) ++ last

/-- A run as it is stored. -/
def Lws.stored (r : Lws) : Bytes := sp r.spaces

def Field.value (run : Lws → Bytes) (side : Side) (f : Field) : Bytes :=
  run f.lead ++ (words run side f.body f.last ++ run f.trail)

def Field.line (run : Lws → Bytes) (side : Side) (f : Field) : Bytes :=
  f.name ++ 58 :: f.value run side

def blockText (side : Side) (fields : List Field) : Bytes :=
  linesText (fields.map (Field.line Lws.text side)) ++ crlf

/-- The entry of a field. -/
def Field.entry (side : Side) (f : Field) : Param :=
  ⟨f.name, (f.value Lws.stored side).dropWhile (· ∈ ascii ": ")⟩

theorem words_nil (run : Lws → Bytes) (side : Side) (last : Bytes) : words run side [] last = last := rfl

theorem words_cons (run : Lws → Bytes) (side : Side) (w : Bytes) (g : Gap) (body : List (Bytes × Gap))
    (last : Bytes) : words run side ((w, g) :: body) last =
      w ++ (run (g.run side) ++ words run side body last) := by
  simp [words]

theorem lws_single_ok : Lws.single.Ok ∧ Lws.single.Nonempty :=
  ⟨⟨by decide, by decide⟩, .inl (by decide)⟩

theorem Gap.run_ok {g : Gap} (hg : g.Ok) (side : Side) : (g.run side).Ok ∧ (g.run side).Nonempty := by
  cases g with
  | kept r => cases side <;> exact hg
  | replaced r r' =>
    cases side with
    | before => exact hg.1
    | after => exact hg.2
    | single => exact lws_single_ok

/-! ## The canonical text of a field -/

theorem words_head {run : Lws → Bytes} {side : Side} {body : List (Bytes × Gap)} {last : Bytes}
    (hb : ∀ w ∈ body, (w.1 ≠ [] ∧ ∀ c ∈ w.1, c ∉ lws) ∧ w.2.Ok) (hl : ∀ c ∈ last, c ∉ lws)
    (hne : last ≠ []) {z : Bytes} : ∀ a t, words run side body last ++ z = a :: t → a ∉ lws := by
  intro a t he
  cases body with
  | nil =>
    obtain ⟨c, last, rfl⟩ := List.exists_cons_of_ne_nil hne
    exact (List.cons.inj he).1 ▸ hl c List.mem_cons_self
  | cons w body =>
    obtain ⟨w, g⟩ := w
    obtain ⟨⟨hw, hfree⟩, -⟩ := hb (w, g) List.mem_cons_self
    obtain ⟨c, w, rfl⟩ := List.exists_cons_of_ne_nil hw
    exact (List.cons.inj he).1 ▸ hfree c List.mem_cons_self

theorem canonLoop_words {side : Side} {body : List (Bytes × Gap)} {last : Bytes}
    (hb : ∀ w ∈ body, (w.1 ≠ [] ∧ ∀ c ∈ w.1, c ∉ lws) ∧ w.2.Ok) (hl : ∀ c ∈ last, c ∉ lws)
    (hne : last ≠ []) (z n : Bytes) :
    canonLoop (words Lws.text side body last ++ z) n =
      canonLoop z (n ++ words Lws.stored side body last) := by
  induction body generalizing n with
  | nil => exact canonLoop_word hl z n
  | cons w body ih =>
    obtain ⟨w, g⟩ := w
    obtain ⟨⟨⟨-, hw⟩, hg⟩, hb'⟩ := List.forall_mem_cons.mp hb
    have hhead : ∀ a t, words Lws.text side body last ++ z = a :: t → a ∉ spht :=
      fun a t he hm => words_head hb' hl hne a t he (mem_lws.mpr (.inl hm))
    rw [words_cons, words_cons, List.append_assoc, List.append_assoc, canonLoop_word hw,
      canonLoop_lws (g.run_ok hg side).1 hhead, ih hb', List.append_assoc, List.append_assoc]
    rfl

theorem canonLoop_field {side : Side} {f : Field} (hf : f.Ok) {z : Bytes}
    (hz : ∀ a t, z = a :: t → a ∉ spht) (n : Bytes) :
    canonLoop (f.line Lws.text side ++ z) n = canonLoop z (n ++ f.line Lws.stored side) := by
  have hname : ∀ c ∈ f.name ++ ascii ":", c ∉ lws := by
    intro c hc hm
    rcases List.mem_append.mp hc with hc | hc
    · exact hf.name c hc (by simp [lws, ascii] at hm ⊢; rcases hm with h | h | h | h <;> simp [h])
    · exact absurd hm (List.mem_singleton.mp hc ▸ by decide)
  have hsplit : ∀ run : Lws → Bytes, f.line run side = (f.name ++ ascii ":") ++
      (run f.lead ++ (words run side f.body f.last ++ run f.trail)) := by
    intro run
    simp [Field.line, Field.value, ascii]
  by_cases hlast : f.last = []
  · -- no words
    obtain ⟨hbody, htrail⟩ := hf.empty hlast
    have hempty : ∀ run : Lws → Bytes, run ⟨[], []⟩ = [] →
        f.line run side = (f.name ++ ascii ":") ++ run f.lead := by
      intro run hrun
      rw [hsplit, hbody, hlast, htrail, hrun, words_nil, List.append_nil, List.append_nil]
    rw [hempty Lws.text rfl, hempty Lws.stored rfl, List.append_assoc, canonLoop_word hname,
      canonLoop_lws hf.lead hz, List.append_assoc]
    rfl
  · have hhead : ∀ a t, words Lws.text side f.body f.last ++ (f.trail.text ++ z) = a :: t → a ∉ spht :=
      fun a t he hm => words_head hf.body hf.last hlast a t he (mem_lws.mpr (.inl hm))
    rw [hsplit, hsplit]
    simp only [List.append_assoc]
    rw [← List.append_assoc f.name, canonLoop_word hname, canonLoop_lws hf.lead hhead,
      canonLoop_words hf.body hf.last hlast, canonLoop_lws hf.trail hz]
    simp only [List.append_assoc]
    rfl

/-! ## The parameters of a block -/

section Block
variable {side : Side}

theorem field_head {f : Field} (hf : f.Ok) {run : Lws → Bytes} {z : Bytes} :
    ∀ a t, f.line run side ++ z = a :: t → a ∉ lws := by
  intro a t he hm
  obtain ⟨c, name, hname⟩ := List.exists_cons_of_ne_nil hf.named
  rw [Field.line, hname] at he
  rw [← (List.cons.inj he).1] at hm
  exact hf.name c (by rw [hname]; exact List.mem_cons_self)
    (by simp [lws, ascii] at hm ⊢; rcases hm with h | h | h | h <;> simp [h])

theorem canonLoop_fields {fields : List Field} (hne : fields ≠ []) (hf : ∀ f ∈ fields, f.Ok)
    (post n : Bytes) :
    canonLoop (blockText side fields ++ post) n =
      (n ++ crlf.intercalate (fields.map (Field.line Lws.stored side)), true) := by
  have hblank : ∀ (y : Bytes) (a : UInt8) (t : Bytes), crlf ++ y = a :: t → a ∉ spht :=
    fun y a t he => (List.cons.inj he).1 ▸ by decide
  rw [blockText]
  induction fields generalizing n with
  | nil => exact absurd rfl hne
  | cons f fields ih =>
    obtain ⟨hf₁, hfs⟩ := List.forall_mem_cons.mp hf
    rw [List.map_cons, linesText_cons, List.append_assoc, List.append_assoc, List.append_assoc,
      canonLoop_field hf₁ (hblank _)]
    cases fields with
    | nil =>
      have hend := canonLoop_ends (r := crlf ++ crlf) (by decide) (by decide) post
        (n ++ f.line Lws.stored side)
      rw [List.append_assoc] at hend
      simpa using hend
    | cons g fields =>
      have hhead : ∀ a t, linesText ((g :: fields).map (Field.line Lws.text side)) ++ (crlf ++ post) =
          a :: t → a ∉ lws := by
        rw [List.map_cons, linesText_cons, List.append_assoc]
        exact field_head (hfs g List.mem_cons_self)
      have h := ih (List.cons_ne_nil g fields) hfs (n ++ f.line Lws.stored side ++ crlf)
      rw [List.append_assoc] at h
      rw [canonLoop_crlf hhead, h]
      simp only [List.map_cons, List.intercalate_cons_cons, List.append_assoc]

theorem mem_stored {c : UInt8} {r : Lws} (hc : c ∈ r.stored) : c = 32 := List.eq_of_mem_replicate hc

/-- The line of a field as it is stored. -/
theorem line_ok (side : Side) {f : Field} (hf : f.Ok) :
    IsLine (f.line Lws.stored side) ∧ Splits (ascii ": ") (f.line Lws.stored side) ∧
      splitItem (ascii ": ") (f.line Lws.stored side) = f.entry side := by
  have hname : ∀ c ∈ f.name, c ∉ ascii ": " := fun c hc hm => hf.name c hc
    (by simp [ascii] at hm ⊢; rcases hm with h | h <;> simp [h])
  refine ⟨⟨by simp [Field.line], fun c hc hm => ?_⟩, ?_, ?_⟩
  · have hlws : c ∈ lws := mem_lws.mpr (.inr hm)
    have h32 : (32 : UInt8) ∉ crlf := by decide
    rw [Field.line, List.mem_append, List.mem_cons] at hc
    rcases hc with hc | rfl | hc
    · exact hf.name c hc (by simp [lws, ascii] at hlws ⊢; rcases hlws with h | h | h | h <;> simp [h])
    · exact absurd hm (by decide)
    · simp only [Field.value, words, List.mem_append, List.mem_flatMap] at hc
      rcases hc with hc | (⟨w, hw, hc | hc⟩ | hc) | hc
      · exact h32 (mem_stored hc ▸ hm)
      · exact (hf.body w hw).1.2 c hc hlws
      · exact h32 (mem_stored hc ▸ hm)
      · exact hf.last c hc hlws
      · exact h32 (mem_stored hc ▸ hm)
  · have h : Splits (ascii ": ") (f.name ++ [58] ++ f.value Lws.stored side) :=
      splits_append hf.named hname (by decide) (by decide)
    rwa [List.append_assoc] at h
  · rw [Field.line, splitItem_cons hname (by decide), List.dropWhile_cons_of_pos (by decide)]
    rfl

/-- **Blocks.** A header block is read as its fields. -/
theorem parse_fields {fields : List Field} (hne : fields ≠ []) (hf : ∀ f ∈ fields, f.Ok) {fuel : Nat}
    (hfuel : fields.length < fuel) {mem post : Bytes}
    (h : HoldsStr mem 0 (blockText side fields ++ post)) (len : Nat) :
    paramsNewParse fuel mem len .headers = some (appendAll [] (fields.map (Field.entry side))) := by
  have hcstr : cstr mem = blockText side fields ++ post := h.strAt_eq
  have hcanon : canonLoop (cstr mem) [] =
      (crlf.intercalate (fields.map (Field.line Lws.stored side)), true) := by
    rw [hcstr, canonLoop_fields hne hf, List.nil_append]
  have hitems : ∀ x ∈ fields.map (Field.line Lws.stored side),
      (x ≠ [] ∧ ∀ c ∈ x, c ∉ ascii "\r\n") ∧ Splits (ascii ": ") x := by
    intro x hx
    obtain ⟨f, hm, rfl⟩ := List.mem_map.mp hx
    obtain ⟨hline, hsplits, -⟩ := line_ok side (hf f hm)
    exact ⟨hline, hsplits⟩
  have hsplit : (fields.map (Field.line Lws.stored side)).map (splitItem (ascii ": ")) =
      fields.map (Field.entry side) := by
    rw [List.map_map]
    exact List.map_congr_left fun f hm => (line_ok side (hf f hm)).2.2
  have h0 : 0 ∉ crlf.intercalate (fields.map (Field.line Lws.stored side)) := by
    have hz := zero_notMem_canonLoop (cstr mem) [] (zero_notMem_cstr mem) (by simp)
    rwa [hcanon] at hz
  have hloop := delimLoop_intercalate (by decide) (by decide) (by decide) hitems ⟨_, 0, []⟩
    (⟨h0, [], rfl⟩ : HoldsStr (crlf.intercalate (fields.map (Field.line Lws.stored side)) ++ [0]) 0 _)
    (by simpa using hfuel : (fields.map (Field.line Lws.stored side)).length < fuel)
  rw [hsplit] at hloop
  rw [paramsNewParse, paramsNewParseHeaders, headersCanonicalize, canonStored, hcanon]
  exact hloop

end Block

/-! ## Runs that matter -/

/-- A text that has more than colons. -/
def Matters (s : Bytes) : Prop := ∃ c ∈ s, c ≠ 58

/-- Every replaced run behind something other than colons and white space is, in both
texts, blanks alone or one line break without blanks in front. -/
def Field.Simple (f : Field) : Prop :=
  ∀ pre w r r' post, f.body = pre ++ (w, .replaced r r') :: post → Matters (pre.flatMap (·.1) ++ w) →
    r.OneStep ∧ r'.OneStep

/-- The run is stored as the one of the text with single blanks. -/
def SameSpaces (side : Side) (g : Gap) : Prop := (g.run side).spaces = (g.run .single).spaces

/-- So is every run that matters. -/
def SimpleOn (side : Side) (body : List (Bytes × Gap)) : Prop :=
  ∀ pre w g post, body = pre ++ (w, g) :: post → Matters (pre.flatMap (·.1) ++ w) → SameSpaces side g

theorem single_le (side : Side) {g : Gap} (hg : g.Ok) :
    (g.run .single).spaces ≤ (g.run side).spaces := by
  cases g with
  | kept r => cases side <;> exact Nat.le_refl _
  | replaced r r' => exact Lws.spaces_pos (Gap.run_ok hg side).2

section Words
variable {side : Side} {body : List (Bytes × Gap)} (last : Bytes)

theorem words_le (side : Side) (hb : ∀ w ∈ body, w.2.Ok) :
    (words Lws.stored .single body last).length ≤ (words Lws.stored side body last).length := by
  induction body with
  | nil => exact Nat.le_refl _
  | cons w body ih =>
    obtain ⟨w, g⟩ := w
    obtain ⟨hg, hb'⟩ := List.forall_mem_cons.mp hb
    have hle : (g.run .single).spaces ≤ (g.run side).spaces := single_le side hg
    have := ih hb'
    simp only [words_cons, List.length_append, Lws.stored, sp, List.length_replicate]
    omega

theorem words_same (hs : ∀ w ∈ body, SameSpaces side w.2) :
    words Lws.stored side body last = words Lws.stored .single body last := by
  induction body with
  | nil => rfl
  | cons w body ih =>
    obtain ⟨w, g⟩ := w
    obtain ⟨hg, hs'⟩ := List.forall_mem_cons.mp hs
    rw [words_cons, words_cons, ih hs', Lws.stored, Lws.stored, hg]

theorem words_lt (hb : ∀ w ∈ body, w.2.Ok) (hs : ¬∀ w ∈ body, SameSpaces side w.2) :
    (words Lws.stored .single body last).length < (words Lws.stored side body last).length := by
  induction body with
  | nil => exact absurd (by simp) hs
  | cons w body ih =>
    obtain ⟨w, g⟩ := w
    obtain ⟨hg, hb'⟩ := List.forall_mem_cons.mp hb
    have hle : (g.run .single).spaces ≤ (g.run side).spaces := single_le side hg
    have hrest := words_le last side hb'
    simp only [words_cons, List.length_append, Lws.stored, sp, List.length_replicate]
    by_cases h : SameSpaces side g
    · have := ih hb' fun hs' => hs (List.forall_mem_cons.mpr ⟨h, hs'⟩)
      omega
    · have : (g.run side).spaces ≠ (g.run .single).spaces := h
      omega

/-! ## What is cut off in front of a value -/

/-- A value without its leading colons and blanks. -/
def strip (s : Bytes) : Bytes := s.dropWhile (· ∈ ascii ": ")

theorem strip_front {s : Bytes} (hs : ∀ c ∈ s, c ∈ ascii ": ") (t : Bytes) : strip (s ++ t) = strip t :=
  List.dropWhile_append_of_pos (by simpa using hs)

theorem strip_matters {w : Bytes} (hw : ∀ c ∈ w, c ∉ lws) (hm : Matters w) (t : Bytes) :
    strip (w ++ t) = strip w ++ t := by
  obtain ⟨c, hc, hne⟩ := hm
  have hfree : c ∉ ascii ": " := by
    intro hin
    have h : c = 58 ∨ c = 32 := by simpa [ascii] using hin
    rcases h with h | rfl
    · exact hne h
    · exact hw 32 hc (by decide)
  rw [strip, List.dropWhile_append, if_neg]
  · rfl
  · rw [List.isEmpty_iff, List.dropWhile_eq_nil_iff]
    exact fun hall => hfree (by simpa using hall c hc)

theorem strip_colons {w : Bytes} (hm : ¬Matters w) (n : Nat) (t : Bytes) :
    strip (w ++ (sp n ++ t)) = strip t := by
  have hcolon : ∀ c ∈ w, c = 58 := fun c hc => by
    by_contra hne
    exact hm ⟨c, hc, hne⟩
  have hsp : ∀ c ∈ sp n, c ∈ ascii ": " := fun c hc => List.eq_of_mem_replicate hc ▸ by decide
  rw [strip_front fun c hc => hcolon c hc ▸ by decide, strip_front hsp]

/-- Behind colons, a run is cut off. -/
theorem simpleOn_colons {w : Bytes} (g : Gap) (hm : ¬Matters w) :
    SimpleOn side ((w, g) :: body) ↔ SimpleOn side body := by
  have hskip : ∀ s, Matters (w ++ s) ↔ Matters s := by
    intro s
    refine ⟨fun h => ?_, fun h => ?_⟩
    · obtain ⟨c, hc, hne⟩ := h
      rcases List.mem_append.mp hc with hc | hc
      · exact absurd ⟨c, hc, hne⟩ hm
      · exact ⟨c, hc, hne⟩
    · obtain ⟨c, hc, hne⟩ := h
      exact ⟨c, List.mem_append_right _ hc, hne⟩
  constructor
  · rintro h pre v k post rfl hmat
    refine h ((w, g) :: pre) v k post rfl ?_
    rw [List.flatMap_cons, List.append_assoc, hskip]
    exact hmat
  · intro h pre v k post he hmat
    cases pre with
    | nil =>
      cases (List.cons.inj he).1
      exact absurd hmat hm
    | cons x pre =>
      obtain ⟨rfl, hbody⟩ := List.cons.inj he
      rw [List.flatMap_cons, List.append_assoc, hskip] at hmat
      exact h pre v k post hbody hmat

/-- Behind a word that matters, every run does. -/
theorem simpleOn_matters {w : Bytes} (g : Gap) (hm : Matters w) :
    SimpleOn side ((w, g) :: body) ↔ ∀ v ∈ (w, g) :: body, SameSpaces side v.2 := by
  constructor
  · intro h v hv
    obtain ⟨pre, post, he⟩ := List.append_of_mem hv
    refine h pre v.1 v.2 post he ?_
    obtain ⟨c, hc, hne⟩ := hm
    refine ⟨c, ?_, hne⟩
    cases pre with
    | nil => cases (List.cons.inj he).1; exact hc
    | cons x pre =>
      cases (List.cons.inj he).1
      simp [hc]
  · intro h pre v k post he _
    exact h (v, k) (by rw [he]; simp)

/-- **Values.** A value with any runs is the one with single blanks when the runs that
matter are simple, and else it is longer. -/
theorem strip_words (side : Side) (hb : ∀ w ∈ body, (w.1 ≠ [] ∧ ∀ c ∈ w.1, c ∉ lws) ∧ w.2.Ok) (z : Bytes) :
    (SimpleOn side body →
        strip (words Lws.stored side body last ++ z) = strip (words Lws.stored .single body last ++ z)) ∧
      (¬SimpleOn side body →
        (strip (words Lws.stored .single body last ++ z)).length <
          (strip (words Lws.stored side body last ++ z)).length) := by
  induction body with
  | nil => exact ⟨fun _ => rfl, fun h => absurd (fun pre _ _ _ he => by simp at he) h⟩
  | cons w body ih =>
    obtain ⟨w, g⟩ := w
    obtain ⟨⟨⟨-, hw⟩, hg⟩, hb'⟩ := List.forall_mem_cons.mp hb
    have hgaps : ∀ v ∈ (w, g) :: body, v.2.Ok := fun v hv => (hb v hv).2
    by_cases hm : Matters w
    · have hfront : ∀ side, strip (words Lws.stored side ((w, g) :: body) last ++ z) =
          strip w ++ ((g.run side).stored ++ words Lws.stored side body last ++ z) := by
        intro side
        rw [words_cons, List.append_assoc, strip_matters hw hm]
      rw [simpleOn_matters g hm]
      refine ⟨fun h => by rw [words_same last h], fun h => ?_⟩
      have hlt := words_lt last hgaps h
      simp only [words_cons, List.length_append] at hlt
      simp only [hfront, List.length_append]
      omega
    · have hcut : ∀ side, strip (words Lws.stored side ((w, g) :: body) last ++ z) =
          strip (words Lws.stored side body last ++ z) := by
        intro side
        rw [words_cons, List.append_assoc, List.append_assoc, Lws.stored, strip_colons hm]
      rw [simpleOn_colons g hm, hcut, hcut]
      exact ih hb'

end Words

/-! ## Blocks that differ in runs -/

theorem simple_iff {f : Field} (hf : f.Ok) :
    f.Simple ↔ SimpleOn .before f.body ∧ SimpleOn .after f.body := by
  have hok : ∀ {pre w g post}, f.body = pre ++ (w, g) :: post → g.Ok := by
    intro pre w g post he
    exact (hf.body (w, g) (by rw [he]; simp)).2
  constructor
  · intro h
    constructor
    · intro pre w g post he hm
      cases g with
      | kept r => rfl
      | replaced r r' => exact (Lws.spaces_eq_one (hok he).1.2).mpr (h pre w r r' post he hm).1
    · intro pre w g post he hm
      cases g with
      | kept r => rfl
      | replaced r r' => exact (Lws.spaces_eq_one (hok he).2.2).mpr (h pre w r r' post he hm).2
  · rintro ⟨hb, ha⟩ pre w r r' post he hm
    exact ⟨(Lws.spaces_eq_one (hok he).1.2).mp (hb pre w _ post he hm),
      (Lws.spaces_eq_one (hok he).2.2).mp (ha pre w _ post he hm)⟩

/-- The entry of a field, with simple runs and with others. -/
theorem entry_simple {f : Field} (hf : f.Ok) (side : Side) :
    (SimpleOn side f.body → f.entry side = f.entry .single) ∧
      (¬SimpleOn side f.body → (f.entry .single).value.length < (f.entry side).value.length) := by
  have hvalue : ∀ side, (f.entry side).value =
      strip (words Lws.stored side f.body f.last ++ f.trail.stored) := fun side =>
    strip_front (s := f.lead.stored) (fun c hc => mem_stored hc ▸ by decide) _
  obtain ⟨hsame, hlonger⟩ := strip_words f.last side hf.body f.trail.stored
  rw [← hvalue, ← hvalue] at hsame hlonger
  exact ⟨fun h => congrArg (Param.mk f.name) (hsame h), hlonger⟩

theorem weight_entries_le (k : Bytes) (side : Side) {fields : List Field} (hf : ∀ f ∈ fields, f.Ok) :
    weight k (fields.map (Field.entry .single)) ≤ weight k (fields.map (Field.entry side)) := by
  induction fields with
  | nil => exact Nat.le_refl _
  | cons f fields ih =>
    obtain ⟨hf₁, hfs⟩ := List.forall_mem_cons.mp hf
    have hrest := ih hfs
    have hlen : (f.entry .single).value.length ≤ (f.entry side).value.length := by
      by_cases h : SimpleOn side f.body
      · rw [(entry_simple hf₁ side).1 h]
      · exact Nat.le_of_lt ((entry_simple hf₁ side).2 h)
    have hkey : (f.entry side).key = (f.entry .single).key := rfl
    rw [List.map_cons, List.map_cons, weight_cons, weight_cons, hkey]
    split <;> omega

/-- A run that matters and is stored as more than one SP shows in the parameters. -/
theorem same_iff_simple (side : Side) {fields : List Field} (hf : ∀ f ∈ fields, f.Ok) :
    SameParams (appendAll [] (fields.map (Field.entry side)))
        (appendAll [] (fields.map (Field.entry .single))) ↔
      ∀ f ∈ fields, SimpleOn side f.body := by
  constructor
  · intro h f hm
    by_contra hnot
    obtain ⟨pre, post, rfl⟩ := List.append_of_mem hm
    have hpre := weight_entries_le (lower f.name) side fun g hg => hf g (List.mem_append_left _ hg)
    have hpost := weight_entries_le (lower f.name) side fun g hg =>
      hf g (List.mem_append_right pre (List.mem_cons_of_mem f hg))
    have hlt := (entry_simple (hf f hm) side).2 hnot
    have heq := weight_eq_of_same (k := lower f.name) h
    have hself : ∀ side, lower (f.entry side).key = lower f.name := fun _ => rfl
    simp only [List.map_append, List.map_cons, weight_append, weight_cons, hself, if_true] at heq
    omega
  · intro h
    rw [List.map_congr_left fun f hm => (entry_simple (hf f hm) side).1 (h f hm)]
    exact fun p => Iff.rfl

/-- **Folded values.** For every header block and every replacement of runs of white
space in its values: the block before and the block after it give the parameters of
the one with single blanks exactly when every replaced run that matters is, before and
after, blanks alone or one line break without blanks in front. They are then equal
lists. -/
theorem folded_iff (fields : List Field) (hne : fields ≠ []) (hf : ∀ f ∈ fields, f.Ok) (fuel : Nat)
    (hfuel : fields.length < fuel) (mem : Side → Bytes) (post : Side → Bytes)
    (hmem : ∀ side, HoldsStr (mem side) 0 (blockText side fields ++ post side)) (len : Nat) :
    ∃ l : Side → List Param, (∀ side, paramsNewParse fuel (mem side) len .headers = some (l side)) ∧
      (SameParams (l .before) (l .single) ∧ SameParams (l .after) (l .single) ↔
        ∀ f ∈ fields, f.Simple) ∧
      ((∀ f ∈ fields, f.Simple) → l .before = l .single ∧ l .after = l .single) := by
  refine ⟨fun side => appendAll [] (fields.map (Field.entry side)),
    fun side => parse_fields hne hf hfuel (hmem side) len, ?_, fun h => ?_⟩
  · rw [same_iff_simple .before hf, same_iff_simple .after hf]
    constructor
    · rintro ⟨hb, ha⟩ f hm
      exact (simple_iff (hf f hm)).mpr ⟨hb f hm, ha f hm⟩
    · intro h
      exact ⟨fun f hm => ((simple_iff (hf f hm)).mp (h f hm)).1,
        fun f hm => ((simple_iff (hf f hm)).mp (h f hm)).2⟩
  · have hentries : ∀ side, (∀ f ∈ fields, SimpleOn side f.body) →
        fields.map (Field.entry side) = fields.map (Field.entry .single) := fun side hs =>
      List.map_congr_left fun f hm => (entry_simple (hf f hm) side).1 (hs f hm)
    simp only [hentries .before fun f hm => ((simple_iff (hf f hm)).mp (h f hm)).1,
      hentries .after fun f hm => ((simple_iff (hf f hm)).mp (h f hm)).2, and_self]

/-- `X: a b` with `r` and `r'` between the words. -/
def twoWords (r r' : Lws) : Field :=
  ⟨ascii "X", Lws.single, [(ascii "a", .replaced r r')], ascii "b", ⟨[], []⟩⟩

theorem twoWords_ok (r r' : Lws) (hr : r.Ok ∧ r.Nonempty) (hr' : r'.Ok ∧ r'.Nonempty) :
    ∀ f ∈ [twoWords r r'], f.Ok := by
  have hname : ascii "X" ≠ [] ∧ ∀ c ∈ ascii "X", c ∉ ascii ": \t\r\n" := by decide
  have hword : ascii "a" ≠ [] ∧ ∀ c ∈ ascii "a", c ∉ lws := by decide
  have hlast : ascii "b" ≠ [] ∧ ∀ c ∈ ascii "b", c ∉ lws := by decide
  intro f hf
  obtain rfl := List.mem_singleton.mp hf
  exact
    { named := hname.1
      name := hname.2
      lead := lws_single_ok.1
      body := fun w hw => List.mem_singleton.mp hw ▸ ⟨hword, hr, hr'⟩
      last := hlast.2
      trail := ⟨fun c hc => (by cases hc), fun b hb => (by cases hb)⟩
      empty := fun h => absurd h hlast.1 }

/-- A blank and a tab, and a line break with a tab behind it. -/
def tabbed : Field := twoWords ⟨ascii " \t", []⟩ ⟨[], [ascii "\t"]⟩

theorem folded_iff_tabbed :
    ∃ l : Side → List Param, ∀ side,
      paramsNewParse 2 (blockText side [tabbed] ++ [0]) 0 .headers = some (l side) ∧
      l .before = l .single ∧ l .after = l .single := by
  have hok := twoWords_ok ⟨ascii " \t", []⟩ ⟨[], [ascii "\t"]⟩
    ⟨⟨by decide, by decide⟩, .inl (by decide)⟩ ⟨⟨by decide, by decide⟩, .inr (by decide)⟩
  obtain ⟨l, hl, -, heq⟩ := folded_iff [tabbed] (by decide) hok 2 (by decide)
    (fun side => blockText side [tabbed] ++ [0]) (fun _ => [])
    (fun side => by cases side <;> exact ⟨by decide, [], by simp⟩) 0
  have hsimple : ∀ f ∈ [tabbed], f.Simple := by
    intro f hf pre w r r' post he _
    obtain rfl := List.mem_singleton.mp hf
    cases pre with
    | nil =>
      cases (List.cons.inj he).1
      exact ⟨.inl rfl, .inr ⟨rfl, rfl⟩⟩
    | cons x pre => exact absurd (List.cons.inj he).2 (by simp)
  exact ⟨l, fun side => ⟨hl side, heq hsimple⟩⟩

/-- A blank in front of a line break, and a line break alone. -/
def blankThenBreak : Field := twoWords ⟨ascii " ", [ascii " "]⟩ ⟨[], [ascii " "]⟩

/-- **Counterexample.** A line that is broken behind a blank gives a value with two blanks. -/
theorem foldedBehindBlank :
    ¬∀ (fields : List Field) (fuel : Nat) (mem post : Side → Bytes) (len : Nat),
      fields ≠ [] → (∀ f ∈ fields, f.Ok) → fields.length < fuel → (∀ side, HoldsStr (mem side) 0
        (blockText side fields ++ post side)) →
      paramsNewParse fuel (mem .before) len .headers = paramsNewParse fuel (mem .single) len .headers := by
  intro h
  have hok := twoWords_ok ⟨ascii " ", [ascii " "]⟩ ⟨[], [ascii " "]⟩
    ⟨⟨by decide, by decide⟩, .inl (by decide)⟩ ⟨⟨by decide, by decide⟩, .inr (by decide)⟩
  have heq := h [blankThenBreak] 2 (fun side => blockText side [blankThenBreak] ++ [0]) (fun _ => []) 0
    (by decide) hok (by decide) (fun side => by cases side <;> exact ⟨by decide, [], by simp⟩)
  exact absurd heq (by decide +kernel)

end Sighttpd.L1
