import Mathlib.Data.List.Infix
import Sighttpd.L1Data.Canonicalize
import Sighttpd.L1Data.DelimLoop
import Sighttpd.L1Data.ParamsPrint

/-!
# Reading back what was printed

The text of a list of entries, as a query string or as a header block, is read by
`params_new_parse` as the entries appended one after the other, and so is the text
`params_snprint` prints for the list that gives.

* `delimItems_intercalate`: a text of items joined by a separator is cut back into
  these items.
* `canonLoop_plain`, `canonLoop_headers`: white space that is already as
  `headers_canonicalize` wants it is copied.
* `parse_entryText`: the text of any well-formed entries is read back.
* `parse_print_roundtrip`: and so is what is printed for the list it gives.
-/
namespace Sighttpd.L1
open Sighttpd.CString

/-! ## Well-formed names and values -/

def NameOk : Style → Bytes → Prop
  | .query, k => k ≠ [] ∧ ∀ c ∈ k, c ∉ ascii "=&" ++ [0]
  | .headers, k => k ≠ [] ∧ ∀ c ∈ k, c ∉ ascii ": \t\r\n" ++ [0]
  | _, _ => False

/-- A header value has no two blanks in a row, so that none is dropped. -/
def ValueOk : Style → Bytes → Prop
  | .query, v => (∀ c ∈ v, c ∉ ascii "&" ++ [0]) ∧ ∀ c ∈ v.head?, c ∉ ascii "="
  | .headers, v => (∀ c ∈ v, c ∉ ascii "\t\r\n" ++ [0]) ∧ ¬ ascii "  " <:+: v ∧
      ∀ c ∈ v.head?, c ∉ ascii ": "
  | _, _ => False

def EntryOk (style : Style) (e : Param) : Prop := NameOk style e.key ∧ ValueOk style e.value

instance (style : Style) (e : Param) : Decidable (EntryOk style e) := by
  cases style <;> unfold EntryOk NameOk ValueOk <;> infer_instance

/-- Two blanks in a row lie in one of the parts, or where they meet. -/
theorem not_infix_append {a b : Bytes} (ha : ¬ ascii "  " <:+: a) (hb : ¬ ascii "  " <:+: b)
    (hjoin : a.getLast? = some 32 → b.head? ≠ some 32) : ¬ ascii "  " <:+: a ++ b := by
  induction a with
  | nil => exact hb
  | cons x a ih =>
    intro h
    rcases List.infix_cons_iff.mp h with hpre | hin
    · obtain ⟨hx, htail⟩ := List.cons_prefix_cons.mp hpre
      cases a with
      | nil =>
        obtain ⟨t, ht⟩ := htail
        have hb32 : 32 :: t = b := ht
        exact hjoin (by rw [← hx]; rfl) (by rw [← hb32]; rfl)
      | cons y a =>
        have hy := (List.cons_prefix_cons.mp htail).1
        exact ha (hx ▸ hy ▸ ⟨[], a, rfl⟩)
    · refine ih (fun h' => ha (List.infix_cons h')) (fun hlast => hjoin ?_) hin
      rw [List.getLast?_cons, hlast]
      rfl

theorem not_infix_join {a b : Bytes} (ha : ¬ ascii "  " <:+: a) (hb : ¬ ascii "  " <:+: b) :
    ¬ ascii "  " <:+: a ++ ascii "," ++ b := by
  have hcomma : ¬ ascii "  " <:+: ascii "," := by decide
  refine not_infix_append (not_infix_append ha hcomma fun _ => by decide) hb fun hlast => ?_
  rw [List.getLast?_append] at hlast
  exact absurd hlast (by simp [ascii])

/-- Two well-formed values joined by a comma are a well-formed value. -/
theorem valueOk_join (style : Style) (a b : Bytes) (ha : ValueOk style a) (hb : ValueOk style b) :
    ValueOk style (a ++ ascii "," ++ b) := by
  have hhead : ∀ x : Bytes, (∀ c ∈ a.head?, c ∉ x) → 44 ∉ x →
      ∀ c ∈ (a ++ ascii "," ++ b).head?, c ∉ x := by
    intro x hx h44 c hc
    cases a with
    | nil => obtain rfl : 44 = c := by simpa [ascii] using hc
             exact h44
    | cons d t => exact hx c (by simpa using hc)
  have hall : ∀ x : Bytes, (∀ c ∈ a, c ∉ x) → (∀ c ∈ b, c ∉ x) → 44 ∉ x →
      ∀ c ∈ a ++ ascii "," ++ b, c ∉ x := by
    intro x h1 h2 h44 c hc
    rw [List.mem_append, List.mem_append] at hc
    rcases hc with (hc | hc) | hc
    · exact h1 c hc
    · obtain rfl : c = 44 := by simpa [ascii] using hc
      exact h44
    · exact h2 c hc
  cases style with
  | query => exact ⟨hall _ ha.1 hb.1 (by decide), hhead _ ha.2 (by decide)⟩
  | headers =>
    exact ⟨hall _ ha.1 hb.1 (by decide), not_infix_join ha.2.1 hb.2.1, hhead _ ha.2.2 (by decide)⟩
  | metatags => exact ha
  | paramtags => exact ha

theorem entryOk_appendAll {style : Style} {es : List Param} (hes : ∀ e ∈ es, EntryOk style e) :
    ∀ e ∈ appendAll [] es, EntryOk style e :=
  forall_appendAll (valueOk_join style) (by simp) hes

/-! ## Items -/

section Items
variable {vd ed : Bytes}

theorem Cut.delimItems_eq {s item sep rest : Bytes} (hc : Cut ed s item sep rest) (hi : item ≠ []) :
    delimItems ed s = item :: delimItems ed rest := by
  have hstop : ∀ c t, sep ++ rest = c :: t → c ∈ ed := by
    intro c t he
    cases sep with
    | nil => rw [hc.sep_nil rfl] at he; exact absurd he (by simp)
    | cons d t' => exact hc.sep_delim c (by simp at he; simp [he.1])
  have htake : s.takeWhile (· ∉ ed) = item := by
    rw [hc.eq]
    exact takeWhile_append_eq (by simpa using hc.item_free) fun c t he => by simpa using hstop c t he
  have hdrop : (s.dropWhile (· ∉ ed)).dropWhile (· ∈ ed) = rest := by
    rw [hc.eq, dropWhile_append_eq (x := item) (by simpa using hc.item_free)
      fun c t he => by simpa using hstop c t he]
    exact dropWhile_append_eq (by simpa using hc.sep_delim)
      fun c t he => by simpa using hc.rest_head c t he
  rw [delimItems, if_neg (by rwa [htake]), htake, hdrop]

theorem delimItems_intercalate {sep : Bytes} (hne : sep ≠ []) (hsep : ∀ c ∈ sep, c ∈ ed)
    {items : List Bytes} (hitems : ∀ x ∈ items, x ≠ [] ∧ ∀ c ∈ x, c ∉ ed) :
    delimItems ed (sep.intercalate items) = items := by
  induction items with
  | nil => exact delimItems_nil ed
  | cons x items ih =>
    obtain ⟨hx, hrest⟩ := List.forall_mem_cons.mp hitems
    cases items with
    | nil =>
      rw [List.intercalate_singleton, (cut_self hx.2).delimItems_eq hx.1, delimItems_nil]
    | cons y items =>
      obtain ⟨hy, -⟩ := List.forall_mem_cons.mp hrest
      obtain ⟨c, y', rfl⟩ := List.exists_cons_of_ne_nil hy.1
      have hhead : ∀ a t, sep.intercalate ((c :: y') :: items) = a :: t → a ∉ ed := by
        intro a t he
        have hac : a = c := by cases items <;> simp at he <;> exact he.1.symm
        exact hac ▸ hy.2 c (List.mem_cons_self ..)
      have hcut : Cut ed (x ++ sep ++ sep.intercalate ((c :: y') :: items)) x sep
          (sep.intercalate ((c :: y') :: items)) :=
        ⟨List.append_assoc .., hx.2, hsep, hhead, fun h => absurd h hne⟩
      rw [List.intercalate_cons_cons, hcut.delimItems_eq hx.1, ih hrest]

theorem splits_append {name eqs value : Bytes} (hn : name ≠ []) (hname : ∀ c ∈ name, c ∉ vd)
    (he : eqs ≠ []) (heqs : ∀ c ∈ eqs, c ∈ vd) : Splits vd (name ++ eqs ++ value) := by
  have hspan : strcspn (name ++ (eqs ++ value)) vd = name.length := by
    obtain ⟨d, eqs, rfl⟩ := List.exists_cons_of_ne_nil he
    exact strcspn_append hname fun c t h => heqs c (by simp at h; simp [h.1])
  have := List.length_pos_iff.mpr hn
  have := List.length_pos_iff.mpr he
  rw [List.append_assoc, Splits, hspan]
  simp only [List.length_append]
  omega

theorem splitItem_append {name eqs value : Bytes} (hname : ∀ c ∈ name, c ∉ vd) (he : eqs ≠ [])
    (heqs : ∀ c ∈ eqs, c ∈ vd) (hv : ∀ c t, value = c :: t → c ∉ vd) :
    splitItem vd (name ++ eqs ++ value) = ⟨name, value⟩ := by
  have hstop : ∀ c t, eqs ++ value = c :: t → c ∈ vd := by
    obtain ⟨d, eqs, rfl⟩ := List.exists_cons_of_ne_nil he
    exact fun c t h => heqs c (by simp at h; simp [h.1])
  rw [List.append_assoc, splitItem, takeWhile_append_eq (x := name) (by simpa using hname)
    fun c t h => by simpa using hstop c t h, dropWhile_append_eq (x := name) (by simpa using hname)
    fun c t h => by simpa using hstop c t h]
  rw [dropWhile_append_eq (by simpa using heqs) fun c t h => by simpa using hv c t h]

/-- A text is split at the first value delimiter. -/
theorem splitItem_cons {name w : Bytes} {c : UInt8} (hname : ∀ c ∈ name, c ∉ vd) (hc : c ∈ vd) :
    splitItem vd (name ++ c :: w) = ⟨name, (c :: w).dropWhile (· ∈ vd)⟩ := by
  have hkey : ∀ c ∈ name, decide (c ∉ vd) = true := fun c hc => by simpa using hname c hc
  have hstop : ∀ d t, c :: w = d :: t → decide (d ∉ vd) = false := by
    intro d t h
    rw [← (List.cons.inj h).1]
    simpa using hc
  rw [splitItem, takeWhile_append_eq hkey hstop, dropWhile_append_eq hkey hstop]

/-- A scanner on the text of joined items appends what the items split into. -/
theorem delimLoop_intercalate (hdisj : ∀ c ∈ vd, c ∉ ed) {sep : Bytes} (hne : sep ≠ [])
    (hsep : ∀ c ∈ sep, c ∈ ed) {items : List Bytes}
    (hitems : ∀ x ∈ items, (x ≠ [] ∧ ∀ c ∈ x, c ∉ ed) ∧ Splits vd x) (st : DelimState) {fuel : Nat}
    (h : HoldsStr st.mem st.key (sep.intercalate items)) (hf : items.length < fuel) :
    delimLoop vd ed fuel st = some (appendAll st.params (items.map (splitItem vd))) := by
  have heq := delimItems_intercalate hne hsep fun x hx => (hitems x hx).1
  rw [delimLoop_eq hdisj _ st fuel h (fun x hx => (hitems x (heq ▸ hx)).2) (by rwa [heq]), heq]

end Items

/-! ## Query strings -/

/-- A query entry without its separator. -/
def queryItem (e : Param) : Bytes := e.key ++ ascii "=" ++ e.value

theorem queryItem_ok {e : Param} (he : EntryOk .query e) :
    ((queryItem e ≠ [] ∧ ∀ c ∈ queryItem e, c ∉ ascii "&") ∧ Splits (ascii "=") (queryItem e)) ∧
      splitItem (ascii "=") (queryItem e) = e := by
  obtain ⟨⟨hne, hk⟩, hv, hhead⟩ := he
  have hkey : ∀ c ∈ e.key, c ∉ ascii "=" := fun c hc hm => hk c hc (by simp [ascii] at hm ⊢; simp [hm])
  refine ⟨⟨⟨by simp [queryItem, hne], fun c hc hm => ?_⟩,
    splits_append hne hkey (by decide) (by simp)⟩, splitItem_append hkey (by decide) (by simp)
      fun c t h => hhead c (by simp [h])⟩
  have hc38 : c = 38 := by simpa [ascii] using hm
  subst hc38
  rw [queryItem, List.mem_append, List.mem_append] at hc
  rcases hc with (hc | hc) | hc
  · exact hk _ hc (by decide)
  · exact absurd hc (by decide)
  · exact hv _ hc (by decide)

theorem parse_query {es : List Param} (hes : ∀ e ∈ es, EntryOk .query e) {fuel : Nat}
    (hf : es.length < fuel) {mem : Bytes} (h : HoldsStr mem 0 (entryText .query es)) :
    paramsNewParseDelim fuel (some mem) (ascii "=") (ascii "&") = some (appendAll [] es) := by
  have hsplit : (es.map queryItem).map (splitItem (ascii "=")) = es := by
    rw [List.map_map]
    exact (List.map_congr_left fun e he => (queryItem_ok (hes e he)).2).trans (List.map_id es)
  have hitems : ∀ x ∈ es.map queryItem,
      (x ≠ [] ∧ ∀ c ∈ x, c ∉ ascii "&") ∧ Splits (ascii "=") x := by
    intro x hx
    obtain ⟨e, he, rfl⟩ := List.mem_map.mp hx
    exact (queryItem_ok (hes e he)).1
  have hloop := delimLoop_intercalate (by decide) (by decide) (by decide) hitems
    ⟨mem, 0, []⟩ h (by simpa using hf : (es.map queryItem).length < fuel)
  rw [hsplit] at hloop
  exact hloop

/-! ## Header blocks -/

theorem canonLoop_word {w : Bytes} (hw : ∀ c ∈ w, c ∉ lws) (rest n : Bytes) :
    canonLoop (w ++ rest) n = canonLoop rest (n ++ w) := by
  induction w generalizing n with
  | nil => simp
  | cons a w ih =>
    obtain ⟨ha, hw'⟩ := List.forall_mem_cons.mp hw
    rw [List.cons_append, canonLoop_cons ha, ih hw', List.append_assoc, List.singleton_append]

/-- Words with single spaces between them are copied. -/
theorem canonLoop_plain {s : Bytes} (hs : ∀ c ∈ s, c ∉ ascii "\t\r\n") (h2 : ¬ ascii "  " <:+: s)
    {rest : Bytes} (hrest : s.getLast? = some 32 → ∀ c t, rest = c :: t → c ∉ spht) (n : Bytes) :
    canonLoop (s ++ rest) n = canonLoop rest (n ++ s) := by
  induction s generalizing n with
  | nil => simp
  | cons a s ih =>
    obtain ⟨ha, hs'⟩ := List.forall_mem_cons.mp hs
    have h2' : ¬ ascii "  " <:+: s := fun hin => h2 (List.infix_cons hin)
    have hrest' : s.getLast? = some 32 → ∀ c t, rest = c :: t → c ∉ spht := by
      intro hlast
      exact hrest (by rw [List.getLast?_cons, hlast]; rfl)
    rw [← List.singleton_append, ← List.append_assoc n, ← ih hs' h2' hrest', List.append_assoc]
    by_cases hsp : a = 32
    · subst hsp
      refine canonLoop_blanks (b := [32]) (by simp) (by decide) (fun c t he => ?_) n
      cases s with
      | nil => exact hrest rfl c t he
      | cons d s =>
        obtain ⟨rfl, -⟩ : d = c ∧ _ := by simpa using he
        obtain ⟨hd, -⟩ := List.forall_mem_cons.mp hs'
        intro hblank
        rcases mem_spht.mp hblank with rfl | rfl
        · exact h2 ⟨[], s, rfl⟩
        · exact hd (by decide)
    · refine canonLoop_cons (fun hl => ?_) (s ++ rest) n
      have hcases : a = 32 ∨ a = 9 ∨ a = 13 ∨ a = 10 := by simpa [lws, ascii] using hl
      rcases hcases with rfl | rfl | rfl | rfl
      · exact hsp rfl
      all_goals exact ha (by decide)

/-- A header line without its line end. -/
def headerLine (e : Param) : Bytes := e.key ++ ascii ": " ++ e.value

theorem canonLoop_headerLine {e : Param} (he : EntryOk .headers e) {rest : Bytes}
    (hrest : ∀ c t, rest = c :: t → c ∈ crlf) (n : Bytes) :
    canonLoop (headerLine e ++ rest) n = canonLoop rest (n ++ headerLine e) := by
  obtain ⟨⟨-, hk⟩, hv, h2, hhead⟩ := he
  have hkey : ∀ c ∈ e.key ++ ascii ":", c ∉ lws := by
    intro c hc hl
    rcases List.mem_append.mp hc with hc | hc
    · exact hk c hc (by simp [lws, ascii] at hl ⊢; rcases hl with h | h | h | h <;> simp [h])
    · exact absurd hl (by simp [ascii] at hc; subst hc; decide)
  have hsep : headerLine e ++ rest = (e.key ++ ascii ":") ++ (ascii " " ++ (e.value ++ rest)) := by
    simp [headerLine, ascii]
  have hstart : ∀ c t, e.value ++ rest = c :: t → c ∉ spht := by
    intro c t heq
    cases hval : e.value with
    | nil => exact crlf_notMem_spht (hrest c t (by rw [hval] at heq; exact heq))
    | cons d v =>
      rw [hval] at heq
      obtain ⟨rfl, -⟩ : d = c ∧ _ := by simpa using heq
      have h32 := hhead d (by rw [hval]; rfl)
      have h9 := hv d (by rw [hval]; exact List.mem_cons_self ..)
      intro hblank
      rcases mem_spht.mp hblank with rfl | rfl
      · exact h32 (by decide)
      · exact h9 (by decide)
  rw [hsep, canonLoop_word hkey, canonLoop_blanks (by decide) (by decide) hstart,
    canonLoop_plain (fun c hc hm => hv c hc (List.mem_append_left _ hm)) h2
      (fun _ c t heq => crlf_notMem_spht (hrest c t heq))]
  simp [headerLine, ascii]

theorem headerLine_head {e : Param} (he : EntryOk .headers e) {s t : Bytes} {c : UInt8}
    (h : headerLine e ++ s = c :: t) : c ∉ lws := by
  obtain ⟨⟨hne, hk⟩, -⟩ := he
  obtain ⟨a, k, hkey⟩ := List.exists_cons_of_ne_nil hne
  rw [headerLine, hkey] at h
  obtain ⟨rfl, -⟩ : a = c ∧ _ := by simpa using h
  intro hl
  exact hk a (by rw [hkey]; exact List.mem_cons_self ..)
    (by simp [lws, ascii] at hl ⊢; rcases hl with h | h | h | h <;> simp [h])

/-- Lines, each with its line end. -/
def linesText (ls : List Bytes) : Bytes := (ls.map (· ++ crlf)).flatten

@[simp] theorem linesText_nil : linesText [] = [] := rfl

@[simp] theorem linesText_cons (l : Bytes) (ls : List Bytes) :
    linesText (l :: ls) = l ++ (crlf ++ linesText ls) := by
  simp [linesText]

@[simp] theorem linesText_append (ls ls' : List Bytes) :
    linesText (ls ++ ls') = linesText ls ++ linesText ls' := by
  simp [linesText]

/-- Lines with CRLF between them are lines with CRLF behind them, but for the last. -/
theorem intercalate_append_singleton (ls : List Bytes) (l : Bytes) :
    crlf.intercalate (ls ++ [l]) = linesText ls ++ l := by
  induction ls with
  | nil => simp
  | cons l' ls ih =>
    rw [linesText_cons, List.cons_append]
    cases ls with
    | nil => simp
    | cons l2 ls =>
      rw [List.cons_append, List.intercalate_cons_cons, ← List.cons_append, ih]
      simp

/-- The lines of a header block. -/
def headerLines (es : List Param) : List Bytes := es.map headerLine

@[simp] theorem headerLines_nil : headerLines [] = [] := rfl

@[simp] theorem headerLines_cons (e : Param) (es : List Param) :
    headerLines (e :: es) = headerLine e :: headerLines es := rfl

@[simp] theorem headerLines_append (es es' : List Param) :
    headerLines (es ++ es') = headerLines es ++ headerLines es' := by
  simp [headerLines]

theorem entryText_headers (es : List Param) :
    entryText .headers es = linesText (headerLines es) ++ crlf := by
  have hformat : paramsFormat .headers = fun e => headerLine e ++ crlf := rfl
  rw [entryText, formatAll, hformat, headerLines, linesText, List.map_map]
  rfl

/-- Header lines are copied, when a word or nothing is behind them. -/
theorem canonLoop_entries {es : List Param} (hes : ∀ e ∈ es, EntryOk .headers e) {z : Bytes}
    (hz : ∀ a t, z = a :: t → a ∉ lws) (n : Bytes) :
    canonLoop (linesText (headerLines es) ++ z) n = canonLoop z (n ++ linesText (headerLines es)) := by
  induction es generalizing n with
  | nil => simp
  | cons e es ih =>
    obtain ⟨he, hes'⟩ := List.forall_mem_cons.mp hes
    have hnext : ∀ a t, linesText (headerLines es) ++ z = a :: t → a ∉ lws := by
      intro a t h
      cases es with
      | nil => exact hz a t h
      | cons e2 es =>
        rw [headerLines_cons, linesText_cons, List.append_assoc] at h
        exact headerLine_head (List.forall_mem_cons.mp hes').1 h
    have hstart : ∀ c t, crlf ++ (linesText (headerLines es) ++ z) = c :: t → c ∈ crlf :=
      fun c t h => (List.cons.inj h).1 ▸ List.mem_cons_self ..
    rw [headerLines_cons, linesText_cons, List.append_assoc, List.append_assoc,
      canonLoop_headerLine he hstart, canonLoop_crlf hnext,
      ih hes']
    simp

/-- The lines come out joined by CRLF, and line ends that end the header end it. -/
theorem canonLoop_entriesEnd {es : List Param} {e : Param} (hes : ∀ x ∈ es ++ [e], EntryOk .headers x)
    {r : Bytes} (hr : ∀ a ∈ r, a ∈ crlf) (hend : endsBlock r) (post n : Bytes) :
    canonLoop (linesText (headerLines es) ++ (headerLine e ++ (r ++ post))) n =
      (n ++ crlf.intercalate (headerLines (es ++ [e])), true) := by
  obtain ⟨hes', he⟩ := List.forall_mem_append.mp hes
  have he := he e (List.mem_singleton_self e)
  have hstart : ∀ c t, r ++ post = c :: t → c ∈ crlf := by
    intro c t h
    cases r with
    | nil => exact absurd hend (by decide)
    | cons a r => exact (List.cons.inj h).1 ▸ hr a (List.mem_cons_self ..)
  rw [canonLoop_entries hes' fun a t h => headerLine_head he h, canonLoop_headerLine he hstart,
    canonLoop_ends hr hend, headerLines_append, headerLines_cons, headerLines_nil,
    intercalate_append_singleton, List.append_assoc]

theorem canonLoop_headers {es : List Param} (hne : es ≠ []) (hes : ∀ e ∈ es, EntryOk .headers e)
    (post n : Bytes) : canonLoop (entryText .headers es ++ post) n =
      (n ++ crlf.intercalate (headerLines es), true) := by
  obtain ⟨es, e, rfl⟩ := (List.eq_nil_or_concat es).resolve_left hne
  rw [List.concat_eq_append] at hes ⊢
  have h := canonLoop_entriesEnd hes (r := crlf ++ crlf) (by decide) (by decide) post n
  rw [← h, entryText_headers]
  simp

theorem headerLine_ok {e : Param} (he : EntryOk .headers e) :
    ((headerLine e ≠ [] ∧ ∀ c ∈ headerLine e, c ∉ ascii "\r\n" ++ [0]) ∧
      Splits (ascii ": ") (headerLine e)) ∧ splitItem (ascii ": ") (headerLine e) = e := by
  obtain ⟨⟨hne, hk⟩, hv, -, hhead⟩ := he
  have hkey : ∀ c ∈ e.key, c ∉ ascii ": " := fun c hc hm => hk c hc (by
    rw [List.mem_append]
    exact .inl (by simp [ascii] at hm ⊢; rcases hm with h | h <;> simp [h]))
  refine ⟨⟨⟨by simp [headerLine, hne], fun c hc hm => ?_⟩,
    splits_append hne hkey (by decide) (by simp)⟩, splitItem_append hkey (by decide) (by simp)
      fun c t h => hhead c (by simp [h])⟩
  have hcases : c = 13 ∨ c = 10 ∨ c = 0 := by simpa [ascii] using hm
  rw [headerLine, List.mem_append, List.mem_append] at hc
  rcases hc with (hc | hc) | hc
  · exact hk _ hc (by rcases hcases with rfl | rfl | rfl <;> decide)
  · rcases hcases with rfl | rfl | rfl <;> exact absurd hc (by decide)
  · exact hv _ hc (by rcases hcases with rfl | rfl | rfl <;> decide)

theorem zero_notMem_headerLine {e : Param} (he : EntryOk .headers e) : 0 ∉ headerLine e :=
  fun hm => (headerLine_ok he).1.1.2 0 hm (by decide)

/-- A header block is read as its entries, whatever is behind it. -/
theorem parse_headers {es : List Param} (hne : es ≠ []) (hes : ∀ e ∈ es, EntryOk .headers e)
    {fuel : Nat} (hf : es.length < fuel) {mem post : Bytes}
    (h : HoldsStr mem 0 (entryText .headers es ++ post)) (len : Nat) :
    paramsNewParseHeaders fuel mem len = some (appendAll [] es) := by
  have hcstr : cstr mem = entryText .headers es ++ post := h.strAt_eq
  have hcanon : headersCanonicalize mem = some (crlf.intercalate (headerLines es) ++ [0]) := by
    rw [headersCanonicalize, canonStored, hcstr, canonLoop_headers hne hes, List.nil_append]
    rfl
  have hsplit : (headerLines es).map (splitItem (ascii ": ")) = es := by
    rw [headerLines, List.map_map]
    exact (List.map_congr_left fun e he => (headerLine_ok (hes e he)).2).trans (List.map_id es)
  have hitems : ∀ x ∈ headerLines es,
      (x ≠ [] ∧ ∀ c ∈ x, c ∉ ascii "\r\n") ∧ Splits (ascii ": ") x := by
    intro x hx
    obtain ⟨e, he, rfl⟩ := List.mem_map.mp hx
    have hok := (headerLine_ok (hes e he)).1
    exact ⟨⟨hok.1.1, fun c hc hm => hok.1.2 c hc (List.mem_append_left _ hm)⟩, hok.2⟩
  have h0 : 0 ∉ crlf.intercalate (headerLines es) := by
    intro hm
    rcases mem_intercalate hm with hm | ⟨x, hx, hm⟩
    · exact zero_notMem_crlf hm
    · obtain ⟨e, he, rfl⟩ := List.mem_map.mp hx
      exact zero_notMem_headerLine (hes e he) hm
  have hholds : HoldsStr (crlf.intercalate (headerLines es) ++ [0]) 0
      (crlf.intercalate (headerLines es)) := ⟨h0, [], rfl⟩
  have hloop := delimLoop_intercalate (by decide) (by decide) (by decide) hitems
    ⟨_, 0, []⟩ hholds (by simpa [headerLines] using hf : (headerLines es).length < fuel)
  rw [hsplit] at hloop
  rw [paramsNewParseHeaders, hcanon]
  exact hloop

/-! ## Both styles -/

theorem zero_notMem_entryText {style : Style} (hstyle : style = .query ∨ style = .headers)
    {es : List Param} (hes : ∀ e ∈ es, EntryOk style e) : 0 ∉ entryText style es := by
  intro h0
  rcases hstyle with rfl | rfl
  · rcases mem_intercalate h0 with hm | ⟨x, hx, hm⟩
    · exact absurd hm (by decide)
    · obtain ⟨e, he, rfl⟩ := List.mem_map.mp hx
      obtain ⟨⟨-, hk⟩, hv, -⟩ := hes e he
      rw [List.mem_append, List.mem_append] at hm
      rcases hm with (hm | hm) | hm
      · exact hk 0 hm (by decide)
      · exact absurd hm (by decide)
      · exact hv 0 hm (by decide)
  · rw [entryText, List.mem_append] at h0
    rcases h0 with hm | hm
    · obtain ⟨x, hx, hm⟩ := List.mem_flatten.mp hm
      obtain ⟨e, he, rfl⟩ := List.mem_map.mp hx
      rcases List.mem_append.mp hm with hm | hm
      · exact zero_notMem_headerLine (hes e he) hm
      · exact zero_notMem_crlf hm
    · exact zero_notMem_crlf hm

/-- The text of well-formed entries is read as the entries appended in order. -/
theorem parse_entryText {style : Style} (hstyle : style = .query ∨ style = .headers)
    {es : List Param} (hne : es ≠ []) (hes : ∀ e ∈ es, EntryOk style e) {mem : Bytes}
    (h : HoldsStr mem 0 (entryText style es)) {len : Nat} (hlen : (entryText style es).length ≤ len) :
    paramsNewParse (es.length + 1) mem len style = some (appendAll [] es) := by
  rcases hstyle with rfl | rfl
  · apply parse_query hes (Nat.lt_succ_self _)
    have hcstr : cstr mem = entryText .query es := h.strAt_eq
    have hnd := holdsStr_strndup mem len
    rwa [hcstr, List.take_of_length_le hlen] at hnd
  · have h' : HoldsStr mem 0 (entryText .headers es ++ []) := by rwa [List.append_nil]
    exact parse_headers hne hes (Nat.lt_succ_self _) h' len

theorem snprint_holds {style : Style} (hstyle : style = .query ∨ style = .headers)
    {l : List Param} (hne : l ≠ []) (hl : ∀ e ∈ l, EntryOk style e) (mem : Bytes) {n : Nat}
    (hn : (entryText style l).length < n) (hsize : n < sizeMod) :
    HoldsStr (paramsSnprint mem n l style).2 0 (entryText style l) := by
  have h0 := zero_notMem_entryText hstyle hl
  rcases hstyle with rfl | rfl
  · exact snprint_query_holds hne hn hsize h0
  · exact snprint_headers_holds hne hn hsize h0

theorem appendAll_ne_nil {es : List Param} (hne : es ≠ []) : appendAll [] es ≠ [] := by
  obtain ⟨e, es, rfl⟩ := List.exists_cons_of_ne_nil hne
  have hstep : ∀ (l : List Param) k v, paramsAppend l k v ≠ [] := by
    intro l k v
    cases l with
    | nil => simp [paramsAppend]
    | cons p l => rw [paramsAppend]; split <;> simp
  have hrest : ∀ (es l : List Param), l ≠ [] → appendAll l es ≠ [] := by
    intro es
    induction es with
    | nil => exact fun l hl => hl
    | cons e es ih => exact fun l _ => ih _ (hstep l e.key e.value)
  exact hrest es _ (hstep [] e.key e.value)

/-- **Round trip.** Well-formed entries written as a query or as a header block are
read back as the list that appending them in order gives, and so is the text that
`params_snprint` prints for that list into a buffer longer than the text. -/
theorem parse_print_roundtrip {style : Style} (hstyle : style = .query ∨ style = .headers)
    {es : List Param} (hne : es ≠ []) (hes : ∀ e ∈ es, EntryOk style e) :
    (∀ post len, (entryText style es).length ≤ len →
      ∃ fuel, paramsNewParse fuel (entryText style es ++ 0 :: post) len style =
        some (appendAll [] es)) ∧
    ∀ mem n len, (entryText style (appendAll [] es)).length < n → n < sizeMod →
      (entryText style (appendAll [] es)).length ≤ len →
      HoldsStr (paramsSnprint mem n (appendAll [] es) style).2 0 (entryText style (appendAll [] es)) ∧
      ∃ fuel, paramsNewParse fuel (paramsSnprint mem n (appendAll [] es) style).2 len style =
        some (appendAll [] es) := by
  refine ⟨fun post len hlen => ⟨es.length + 1, parse_entryText hstyle hne hes
    ⟨zero_notMem_entryText hstyle hes, post, rfl⟩ hlen⟩, fun mem n len hn hsize hlen => ?_⟩
  have hp := entryOk_appendAll hes
  have hprint := snprint_holds hstyle (appendAll_ne_nil hne) hp mem hn hsize
  refine ⟨hprint, _, (parse_entryText hstyle (appendAll_ne_nil hne) hp hprint hlen).trans ?_⟩
  -- the names of a list that was appended together are pairwise different
  have hnil : (names []).Nodup := List.nodup_nil
  have hnames : (names ([] ++ appendAll [] es)).Nodup := nodup_appendAll hnil es
  rw [appendAll_of_nodup hnames, List.nil_append]

/-- A header block with a name in two spellings and an empty value. -/
theorem parse_print_roundtrip_headers :
    let es := [⟨ascii "Accept", ascii "a: b "⟩, ⟨ascii "Host", []⟩, ⟨ascii "ACCEPT", ascii "c"⟩]
    let l := [⟨ascii "Accept", ascii "a: b ,c"⟩, ⟨ascii "Host", []⟩]
    (∃ fuel, paramsNewParse fuel (entryText .headers es ++ [0]) 64 .headers = some l) ∧
    ∃ fuel, paramsNewParse fuel (paramsSnprint (List.replicate 64 0) 64 l .headers).2 64 .headers =
      some l := by
  intro es l
  have hne : es ≠ [] := by decide
  have hes : ∀ e ∈ es, EntryOk .headers e := by decide
  have h := parse_print_roundtrip (.inr rfl) hne hes
  exact ⟨h.1 [] 64 (by decide), (h.2 (List.replicate 64 0) 64 64 (by decide) (by decide) (by decide)).2⟩

end Sighttpd.L1
