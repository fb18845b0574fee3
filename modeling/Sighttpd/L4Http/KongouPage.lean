import Sighttpd.L1Data.ParamsWeight
import Sighttpd.L1Data.ParamsMap
import Sighttpd.L4Http.KongouOutput
import Sighttpd.L4Http.Respond

/-!
# The page of the camera controls (`kongou.c`, `kongou_body`)

The controls are read of what `kgctrl` prints, and the query of a request sets fields:
`params_foreach` hands every entry to `kongou_set_param`, which may call `system`. What
`kgctrl` prints, what the local buffers held and what `system` returns are parameters.

* `entry_found`: an entry does nothing unless its name is that of a field.
* `pageControl_fits`: outputs that fit give controls, the same whatever the buffers held.
* `kongouBody_safe`: the page is that of the fields and some numbers; of the request
  nothing else comes into it, nor into a command.
-/
namespace Sighttpd.L4
open Sighttpd.CString Sighttpd.L1 Sighttpd.Numeral

/-! ## Model -/

/-- What `kgctrl get-all` and `kgctrl info` print, and what `system` returns for a command. -/
structure Kgctrl where
  got : Bytes
  info : Bytes
  ret : Bytes → Int

/-- What an entry comes to; mirrors the call of `kongou_set_param` from src/params.c:132-147
(`params_foreach`), which goes on as 0 is returned -/
def kongouEntry (kgctrl : Kgctrl) (control : KongouControl) (p : Param) : List KongouEffect :=
  let ret := match kongouGetField control p.key with
    | some f => kgctrl.ret (kgctrlSet f (atoi p.value))
    | none => 0
  kongouSetParam control ret (some p.key) (some p.value)

/-- mirrors src/kongou.c:259 -/
def wantsFull (path : Bytes) : Bool := ascii "full" <:+: path

/-- The controls of a page; mirrors src/kongou.c:260 -/
def pageControl (kgctrl : Kgctrl) (staleGot staleInfo : Stale) (path : Bytes) :
    Option (Except KongouFault KongouControl) := do
  let run ← kongouControlInitRun (wantsFull path) kgctrl.got kgctrl.info staleGot staleInfo
  some run.control

/-- What follows the first `?`; mirrors src/kongou.c:262, 271-272 -/
def queryOf (path : Bytes) : Option Bytes :=
  if 63 ∈ path then some (path.drop (path.idxOf 63 + 1)) else none

def kongouHead : Bytes := ascii "<html><head><title>Kongou</title></head><body><h1>Kongou</h1>"

def kongouFoot : Bytes := ascii "</body></html>"

/-- mirrors src/kongou.c:262-288, behind `kongou_control_init` -/
def controlPage (fuel : Nat) (kgctrl : Kgctrl) (control : KongouControl) (path : Bytes) :
    Option (List KongouEffect) := do
  let entries ← match queryOf path with
    | some q => do
      let query ← paramsNewParse fuel (q ++ [0]) q.length .query
      some (.write (ascii "<ul>") :: query.flatMap (kongouEntry kgctrl control) ++
        [.write (ascii "</ul><hr/>")])
    | none => some []
  some (.write kongouHead :: entries ++ (kongouFieldEntries control).map .write ++
    [.write kongouFoot])

/-- mirrors src/kongou.c:245-289 (`kongou_body`); `none` while the query is not read to its end
in `fuel` rounds. `path` is the string in `request`. -/
def kongouBody (fuel : Nat) (kgctrl : Kgctrl) (staleGot staleInfo : Stale) (path : Bytes) :
    Option (Except KongouFault (List KongouEffect)) := do
  match ← pageControl kgctrl staleGot staleInfo path with
  | .error fault => some (.error fault)
  | .ok control => some (.ok (← controlPage fuel kgctrl control path))

/-! ## The page -/

/-- An attempt to set a field to a number. -/
structure Attempt where
  field : KongouField
  val : Int
  deriving DecidableEq

/-- The attempt is carried out: the number is another one, and in range. -/
def Attempt.Allowed (a : Attempt) : Prop :=
  a.val ≠ a.field.value ∧ a.field.rangeMin ≤ a.val ∧ a.val ≤ a.field.rangeMax

instance (a : Attempt) : Decidable a.Allowed := inferInstanceAs (Decidable (_ ∧ _ ∧ _))

def Attempt.cmd (a : Attempt) : Bytes := kgctrlSet a.field a.val

/-- What an attempt comes to. -/
def Attempt.effects (ret : Bytes → Int) (a : Attempt) : List KongouEffect :=
  if a.val = a.field.value then []
  else if a.Allowed then
    [.write (ascii "<li>Set " ++ a.field.name ++ ascii " to " ++ decimal a.val ++ ascii ": <tt>" ++
        a.cmd ++ ascii "</tt>"),
      .system a.cmd, .write (if ret a.cmd = -1 then ascii ": ERROR" else ascii ": OK"),
      .write (ascii "</li>\n")]
  else [.write (rangeError a.field.name a.val a.field)]

/-- The page with these attempts; `none` where the request has no query. -/
def kongouPage (ret : Bytes → Int) (control : KongouControl) (attempts : Option (List Attempt)) :
    List KongouEffect :=
  .write kongouHead ::
    (match attempts with
      | some as => .write (ascii "<ul>") :: as.flatMap (Attempt.effects ret) ++
          [.write (ascii "</ul><hr/>")]
      | none => []) ++
    (kongouFieldEntries control).map .write ++ [.write kongouFoot]

/-- The commands among the effects. -/
def commands (effects : List KongouEffect) : List Bytes :=
  effects.filterMap fun
    | .system cmd => some cmd
    | .write _ => none

/-- Each field is tried once, with an `int`. -/
structure AttemptsOk (control : KongouControl) (attempts : List Attempt) : Prop where
  once : (attempts.map (·.field.no)).Nodup
  displayed : ∀ a ∈ attempts, a.field ∈ displayed control
  int : ∀ a ∈ attempts, -2147483648 ≤ a.val ∧ a.val < 2147483648

/-- No character that a shell takes for anything but part of a word, or a blank. -/
def PlainArg (c : UInt8) : Prop := (97 ≤ c ∧ c ≤ 122) ∨ isDigit c = true ∨ c = 32 ∨ c = 45

/-- A page with these attempts: its commands are those of the attempts that are carried out, and
fit their array of 64 bytes; what is written fits the array of 1024. -/
structure SafePage (kgctrl : Kgctrl) (control : KongouControl) (attempts : Option (List Attempt))
    (effects : List KongouEffect) : Prop where
  page : effects = kongouPage kgctrl.ret control attempts
  tried : AttemptsOk control (attempts.getD [])
  commands : commands effects = ((attempts.getD []).filter (·.Allowed)).map Attempt.cmd
  cmd : ∀ c ∈ L4.commands effects, c.length < 64 ∧ ∀ b ∈ c, PlainArg b
  text : ∀ t, .write t ∈ effects → t.length < 1024

/-! ## Entries -/

section Entries
variable {kgctrl : Kgctrl} {control : KongouControl}

theorem getField_name {key : Bytes} {f : KongouField} (h : kongouGetField control key = some f) :
    f.name = key ∧ ∃ i, control.fields i = f := by
  refine ⟨?_, List.mem_ofFn.mp (List.mem_of_find?_eq_some h)⟩
  have hname : strcmp key f.name = 0 := by simpa using List.find?_some h
  exact (strcmp_eq_zero.mp hname).symm

/-- An entry is an attempt at the field of its name. -/
theorem entry_found {p : Param} {f : KongouField} (h : kongouGetField control p.key = some f) :
    kongouEntry kgctrl control p = Attempt.effects kgctrl.ret ⟨f, atoi p.value⟩ := by
  have hname := (getField_name h).1
  have hbind : (some p.key).bind (kongouGetField control) = some f := h
  simp only [kongouEntry, h, kongouSetParam, hbind, Attempt.effects, Attempt.cmd]
  split
  · rfl
  · rename_i hne
    by_cases hrange : atoi p.value < f.rangeMin ∨ atoi p.value > f.rangeMax
    · have hnot : ¬ (⟨f, atoi p.value⟩ : Attempt).Allowed := by
        rintro ⟨-, hmin, hmax⟩
        simp only at hmin hmax
        omega
      rw [if_pos hrange, if_neg hnot, hname]
    · have hok : (⟨f, atoi p.value⟩ : Attempt).Allowed := by
        refine ⟨hne, ?_, ?_⟩ <;> simp only <;> omega
      rw [if_neg hrange, if_pos hok, hname]
      rfl

theorem entry_unknown {p : Param} (h : kongouGetField control p.key = none) :
    kongouEntry kgctrl control p = [] := by
  have hbind : (some p.key).bind (kongouGetField control) = none := h
  simp only [kongouEntry, kongouSetParam, hbind]

/-- The attempts that entries make. -/
def attemptsOf (control : KongouControl) (query : List Param) : List Attempt :=
  query.filterMap fun p => (kongouGetField control p.key).map fun f => ⟨f, atoi p.value⟩

theorem entries_attempts (query : List Param) : query.flatMap (kongouEntry kgctrl control) =
    (attemptsOf control query).flatMap (Attempt.effects kgctrl.ret) := by
  induction query with
  | nil => rfl
  | cons p query ih =>
    rw [List.flatMap_cons, ih, attemptsOf, attemptsOf, List.filterMap_cons]
    cases h : kongouGetField control p.key with
    | none => rw [entry_unknown h]; rfl
    | some f => rw [entry_found h]; rfl

/-- A field with a name has the number of its place. -/
def Numbered (control : KongouControl) : Prop :=
  ∀ i, (control.fields i).name ≠ [] → (control.fields i).no = i

theorem numbered_fieldInit (h : Numbered control) (f : FieldInfo) :
    Numbered (kongouFieldInit control f) := by
  intro i hi
  by_cases hno : i = f.no
  · subst hno
    simp only [kongouFieldInit, Function.update_self]
  · have hfield : (kongouFieldInit control f).fields i = control.fields i :=
      Function.update_of_ne hno ..
    rw [hfield] at hi ⊢
    exact h i hi

theorem numbered_fieldGot (h : Numbered control) (got : Fin maxField × Int) :
    Numbered (kongouFieldGot control got) := by
  intro i hi
  have hsame : ((kongouFieldGot control got).fields i).name = (control.fields i).name ∧
      ((kongouFieldGot control got).fields i).no = (control.fields i).no := by
    by_cases hno : i = got.1
    · simp only [kongouFieldGot, hno, Function.update_self, and_self]
    · simp only [kongouFieldGot, Function.update_of_ne hno, and_self]
  rw [hsame.1] at hi
  rw [hsame.2]
  exact h i hi

theorem numbered_page {staleGot staleInfo : Stale} {path : Bytes}
    (h : pageControl kgctrl staleGot staleInfo path = some (.ok control)) : Numbered control := by
  unfold pageControl at h
  obtain ⟨run, hrun, hcontrol⟩ := Option.bind_eq_some_iff.mp h
  have hzeroed : Numbered .zeroed := fun i hi => absurd rfl hi
  exact kongouControlInitRun_invariant (I := Numbered) hzeroed
    (fun _ got hnum => numbered_fieldGot hnum got) (fun _ f hnum => numbered_fieldInit hnum f) hrun
    (Option.some.inj hcontrol)

end Entries

/-! ## Queries -/

/-- Names differ, in other respects than case, and are not empty. -/
structure QueryOk (query : List Param) : Prop where
  names : (names query).Nodup
  keys : ∀ p ∈ query, p.key ≠ []

/-- What is read of a query. -/
theorem queryOk_parse {fuel : Nat} {q : Bytes} {query : List Param}
    (h : paramsNewParse fuel (q ++ [0]) q.length .query = some query) : QueryOk query := by
  have hloop : delimLoop (ascii "=") (ascii "&") fuel ⟨strndup (q ++ [0]) q.length, 0, []⟩ =
      some query := h
  have hdisj : ∀ c ∈ ascii "=", c ∉ ascii "&" := by decide
  have hholds := holdsStr_strndup (q ++ [0]) q.length
  -- every item splits, or the loop would not have ended
  have hd := (delimLoop_ends_iff hdisj _ hholds).mp ⟨fuel, by rw [hloop]; rfl⟩
  obtain rfl := delimLoop_some hdisj _ _ _ _ hholds hloop
  refine ⟨nodup_appendAll (show (names []).Nodup from List.nodup_nil) _, fun p hp => ?_⟩
  refine (forall_appendAll (K := fun key => key ≠ []) (V := fun _ => True) (fun _ _ _ _ => trivial)
    (by simp) (fun e he => ⟨?_, trivial⟩) p hp).1
  obtain ⟨item, hitem, rfl⟩ := List.mem_map.mp he
  have hspan : 0 < (item.takeWhile (· ∉ ascii "=")).length := (hd item hitem).1
  exact List.ne_nil_of_length_pos hspan

/-! ## What a page can do -/

theorem atoi_int (s : Bytes) : -2147483648 ≤ atoi s ∧ atoi s < 2147483648 := by
  have h1 := Int.le_bmod (x := strtol s) (m := 4294967296) (by decide)
  have h2 := Int.bmod_lt (x := strtol s) (m := 4294967296) (by decide)
  rw [atoi]
  omega

theorem attemptsOf_ok {control : KongouControl} (hnum : Numbered control) {query : List Param}
    (hq : QueryOk query) : AttemptsOk control (attemptsOf control query) := by
  have hmem : ∀ {a}, a ∈ attemptsOf control query → ∃ p ∈ query,
      kongouGetField control p.key = some a.field ∧ a.val = atoi p.value := by
    intro a ha
    obtain ⟨p, hp, hmap⟩ := List.mem_filterMap.mp ha
    obtain ⟨f, hf, rfl⟩ := Option.map_eq_some_iff.mp hmap
    exact ⟨p, hp, hf, rfl⟩
  have hshown : ∀ {p f}, p ∈ query → kongouGetField control p.key = some f →
      ∃ i, control.fields i = f ∧ f.name ≠ [] ∧ f.no = i ∧ f.name = p.key := by
    intro p f hp hf
    obtain ⟨hname, i, rfl⟩ := getField_name hf
    have hne : (control.fields i).name ≠ [] := by
      rw [hname]
      exact hq.keys p hp
    exact ⟨i, rfl, hne, hnum i hne, hname⟩
  refine ⟨?_, fun a ha => ?_, fun a ha => ?_⟩
  · -- entries of different names find different fields
    rw [attemptsOf, List.map_filterMap, List.Nodup, List.pairwise_filterMap]
    refine (List.pairwise_map.mp hq.names).imp_of_mem fun {p p'} hp hp' hne n hn n' hn' heq => ?_
    simp only [Option.map_map, Option.map_eq_some_iff, Function.comp] at hn hn'
    obtain ⟨f, hf, rfl⟩ := hn
    obtain ⟨f', hf', rfl⟩ := hn'
    obtain ⟨i, hi, -, hno, hname⟩ := hshown hp hf
    obtain ⟨j, hj, -, hno', hname'⟩ := hshown hp' hf'
    have hij : i = j := by
      simp only [hno, hno'] at heq
      exact Fin.ext (Int.ofNat.inj heq)
    apply hne
    rw [← hname, ← hname', ← hi, ← hj, hij]
  · obtain ⟨p, hp, hf, -⟩ := hmem ha
    obtain ⟨i, hi, hne, -⟩ := hshown hp hf
    exact mem_displayed.mpr ⟨i, hi, hne⟩
  · obtain ⟨p, -, -, hval⟩ := hmem ha
    rw [hval]
    exact atoi_int _

theorem controlPage_attempts {fuel : Nat} {kgctrl : Kgctrl} {control : KongouControl}
    (hnum : Numbered control) {path : Bytes} {effects : List KongouEffect}
    (h : controlPage fuel kgctrl control path = some effects) :
    ∃ attempts, (attempts = none ↔ 63 ∉ path) ∧ AttemptsOk control (attempts.getD []) ∧
      effects = kongouPage kgctrl.ret control attempts := by
  by_cases hquery : 63 ∈ path
  · have hq : queryOf path = some (path.drop (path.idxOf 63 + 1)) := if_pos hquery
    simp only [controlPage, hq] at h
    generalize path.drop (path.idxOf 63 + 1) = q at h
    cases hparse : paramsNewParse fuel (q ++ [0]) q.length .query with
    | none => rw [hparse] at h; cases h
    | some query =>
      rw [hparse] at h
      have hok := attemptsOf_ok hnum (queryOk_parse hparse)
      obtain rfl := Option.some.inj h
      refine ⟨some (attemptsOf control query), by simp [hquery], hok, ?_⟩
      rw [kongouPage, entries_attempts]
  · have hq : queryOf path = none := if_neg hquery
    simp only [controlPage, hq] at h
    obtain rfl := Option.some.inj h
    exact ⟨none, by simp [hquery], ⟨List.nodup_nil, by simp, by simp⟩, rfl⟩

/-! ## Lengths and characters -/

/-- All names end in their arrays. -/
def NamesShort (control : KongouControl) : Prop := ∀ i, (control.fields i).name.length < maxName

theorem namesShort_init (got : List (Fin maxField × Int)) {info : Option (List FieldInfo)}
    (h : ∀ f ∈ info.getD shortFields, f.name.length < maxName) :
    NamesShort (kongouControlInit got info) := by
  have hnames := namesOf_foldl_init (info.getD shortFields)
    (namesOf_getAll (fun i hi => absurd rfl hi : NamesOf [] .zeroed) got)
  intro i
  by_cases hne : ((kongouControlInit got info).fields i).name = []
  · rw [hne]
    decide
  · obtain ⟨f, hf, -, hname⟩ := hnames i hne
    rw [List.append_nil, List.mem_reverse] at hf
    have hlt := h f hf
    rw [kongouControlInit, hname, List.length_take]
    omega

/-- The outputs have a NUL where they are read, the numbers on their lines are those of fields,
and the names end in their arrays. -/
structure KgctrlFits (kgctrl : Kgctrl) (path : Bytes) : Prop where
  got : OutputFits GotFits kgctrl.got
  info : wantsFull path = true → OutputFits InfoFits kgctrl.info
  names : wantsFull path = true → ∀ f ∈ readOutput infoLine kgctrl.info, f.name.length < maxName

theorem pageControl_fits {kgctrl : Kgctrl} {path : Bytes} (h : KgctrlFits kgctrl path) :
    ∃ control, NamesShort control ∧
      ∀ staleGot staleInfo, pageControl kgctrl staleGot staleInfo path = some (.ok control) := by
  have hnames : ∀ f ∈ (if wantsFull path = true ∧ kgctrl.info ≠ [] then
      some (readOutput infoLine kgctrl.info) else none).getD shortFields, f.name.length < maxName := by
    split
    · rename_i hfull
      exact h.names hfull.1
    · decide
  refine ⟨_, namesShort_init (readOutput gotLine kgctrl.got) hnames, fun staleGot staleInfo => ?_⟩
  obtain ⟨run, hrun, -, -, hcontrol⟩ := kongouControlInitRun_fits h.got h.info staleGot staleInfo
  simp only [pageControl, hrun, Option.bind_eq_bind, Option.bind_some, hcontrol]

theorem length_valueText_le (v : Int) : (valueText v).length ≤ 10 := by
  have hmod : (v % 4294967296).toNat < 16 ^ 8 := by
    have := Int.emod_lt_of_pos v (show (0 : Int) < 4294967296 by decide)
    have := Int.emod_nonneg v (show (4294967296 : Int) ≠ 0 by decide)
    omega
  have hdigits : (natText 16 (v % 4294967296).toNat).length ≤ 8 := by
    rw [natText, List.length_map]
    exact (Nat.length_toDigits_le_iff (by decide) (by decide)).mpr hmod
  rw [valueText, zeroPadded, List.length_append, List.length_leftpad,
    show (ascii "0x").length = 2 from rfl]
  omega

theorem plainArg_decimal (z : Int) : ∀ c ∈ decimal z, PlainArg c := by
  intro c hc
  unfold decimal at hc
  split at hc
  · rcases List.mem_cons.mp hc with rfl | hc
    · exact .inr (.inr (.inr rfl))
    · exact .inr (.inl (natText_digit _ c hc))
  · exact .inr (.inl (natText_digit _ c hc))

theorem cmd_plain (a : Attempt) : ∀ c ∈ a.cmd, PlainArg c := by
  have hfirst : ∀ c ∈ ascii "kgctrl set 5 ", PlainArg c := by
    unfold PlainArg
    decide
  intro c hc
  rw [Attempt.cmd, kgctrlSet, List.mem_append, List.mem_append, List.mem_append] at hc
  rcases hc with ((hc | hc) | hc) | hc
  · exact hfirst c hc
  · exact plainArg_decimal _ c hc
  · rw [List.mem_singleton.mp hc]
    exact .inr (.inr (.inl rfl))
  · exact plainArg_decimal _ c hc

section Bounds
variable {control : KongouControl} {a : Attempt}

theorem length_cmd_lt (hnum : Numbered control) (hshown : a.field ∈ displayed control)
    (hval : -2147483648 ≤ a.val ∧ a.val < 2147483648) : a.cmd.length < 64 := by
  obtain ⟨i, hi, hne⟩ := mem_displayed.mp hshown
  have hno : a.field.no = i := by
    have := hnum i (hi ▸ hne)
    rwa [hi] at this
  have hsmall : (decimal a.field.no).length ≤ 15 := by
    have hlt : (i : Nat) < 128 := i.isLt
    exact length_decimal_le (by omega) (by omega)
  have hlen := length_decimal_le hval.1 hval.2
  simp only [Attempt.cmd, kgctrlSet, List.length_append]
  rw [show (ascii "kgctrl set 5 ").length = 13 from rfl, show (ascii " ").length = 1 from rfl]
  omega

theorem length_name_lt (hshort : NamesShort control) {f : KongouField} (hf : f ∈ displayed control) :
    f.name.length < 32 := by
  obtain ⟨i, rfl, -⟩ := mem_displayed.mp hf
  exact hshort i

theorem length_effects_lt (hnum : Numbered control) (hshort : NamesShort control)
    (hshown : a.field ∈ displayed control) (hval : -2147483648 ≤ a.val ∧ a.val < 2147483648)
    (ret : Bytes → Int) {t : Bytes} (ht : .write t ∈ a.effects ret) : t.length < 1024 := by
  have hname := length_name_lt hshort hshown
  have hcmd := length_cmd_lt hnum hshown hval
  have hlen := length_decimal_le hval.1 hval.2
  unfold Attempt.effects at ht
  split at ht
  · cases ht
  · split at ht
    · simp only [List.mem_cons, KongouEffect.write.injEq, reduceCtorEq, false_or, List.not_mem_nil,
        or_false] at ht
      rcases ht with rfl | rfl | rfl
      · simp only [List.length_append]
        rw [show (ascii "<li>Set ").length = 8 from rfl, show (ascii " to ").length = 4 from rfl,
          show (ascii ": <tt>").length = 6 from rfl, show (ascii "</tt>").length = 5 from rfl]
        omega
      · split <;> decide
      · decide
    · simp only [List.mem_singleton, KongouEffect.write.injEq] at ht
      obtain rfl := ht
      have h1 := length_valueText_le a.val
      have h2 := length_valueText_le a.field.rangeMin
      have h3 := length_valueText_le a.field.rangeMax
      simp only [rangeError, List.length_append]
      rw [show (ascii "<li>").length = 4 from rfl, show (ascii ": Value ").length = 8 from rfl,
        show (ascii " out of range (").length = 15 from rfl, show (ascii " - ").length = 3 from rfl,
        show (ascii ")\n</li>").length = 7 from rfl]
      omega

theorem length_entry_lt (hshort : NamesShort control) {f : KongouField}
    (hshown : f ∈ displayed control) : (fieldEntry f).length < 1024 := by
  have hname := length_name_lt hshort hshown
  have hval := length_valueText_le f.value
  simp only [fieldEntry, List.length_append]
  rw [show (ascii "<tr><th>").length = 8 from rfl,
    show (ascii "</th><td><input name=\"").length = 22 from rfl,
    show (ascii "\" value=\"").length = 9 from rfl,
    show (ascii "\"/></td></tr>\n").length = 14 from rfl]
  omega

end Bounds

theorem commands_effects (ret : Bytes → Int) (a : Attempt) :
    commands (a.effects ret) = if a.Allowed then [a.cmd] else [] := by
  unfold Attempt.effects
  split
  · rename_i heq
    rw [if_neg fun hok => hok.1 heq]
    rfl
  · split <;> rfl

theorem commands_append (e e' : List KongouEffect) : commands (e ++ e') = commands e ++ commands e' :=
  List.filterMap_append ..

theorem commands_attempts (ret : Bytes → Int) (as : List Attempt) :
    commands (as.flatMap (Attempt.effects ret)) = (as.filter (·.Allowed)).map Attempt.cmd := by
  induction as with
  | nil => rfl
  | cons a as ih =>
    rw [List.flatMap_cons, commands_append, ih, commands_effects, List.filter_cons]
    by_cases hok : a.Allowed
    · simp [hok]
    · simp [hok]

theorem commands_writes (ts : List Bytes) : commands (ts.map .write) = [] := by
  induction ts with
  | nil => rfl
  | cons t ts ih => exact ih

theorem commands_page (ret : Bytes → Int) (control : KongouControl)
    (attempts : Option (List Attempt)) : commands (kongouPage ret control attempts) =
      ((attempts.getD []).filter (·.Allowed)).map Attempt.cmd := by
  have hwrite : ∀ (t : Bytes) e, commands (.write t :: e) = commands e := fun _ _ => rfl
  cases attempts with
  | none =>
    rw [kongouPage, commands_append, commands_append, commands_writes]
    rfl
  | some as =>
    rw [kongouPage, commands_append, commands_append, commands_writes, List.cons_append, hwrite, hwrite,
      commands_append, commands_attempts]
    simp [commands]

theorem safePage {fuel : Nat} {kgctrl : Kgctrl} {control : KongouControl} (hnum : Numbered control)
    (hshort : NamesShort control) {path : Bytes} {effects : List KongouEffect}
    (h : controlPage fuel kgctrl control path = some effects) :
    ∃ attempts, (attempts = none ↔ 63 ∉ path) ∧ SafePage kgctrl control attempts effects := by
  obtain ⟨attempts, hquery, hok, rfl⟩ := controlPage_attempts hnum h
  have hcommands := commands_page kgctrl.ret control attempts
  refine ⟨attempts, hquery, rfl, hok, hcommands, fun c hc => ?_, fun t ht => ?_⟩
  · rw [hcommands] at hc
    obtain ⟨a, ha, rfl⟩ := List.mem_map.mp hc
    have hmem := List.mem_of_mem_filter ha
    exact ⟨length_cmd_lt hnum (hok.displayed a hmem) (hok.int a hmem), cmd_plain a⟩
  · have hform : ∀ t ∈ kongouFieldEntries control, t.length < 1024 := by
      unfold kongouFieldEntries
      rw [List.forall_mem_cons, List.forall_mem_append, List.forall_mem_map, List.forall_mem_singleton]
      exact ⟨by decide, fun f hf => length_entry_lt hshort hf, by decide⟩
    have hlist : ∀ as, attempts = some as → .write t ∈ as.flatMap (Attempt.effects kgctrl.ret) →
        t.length < 1024 := by
      intro as has hmem
      obtain ⟨a, ha, hmem⟩ := List.mem_flatMap.mp hmem
      have ha' : a ∈ attempts.getD [] := by rwa [has]
      exact length_effects_lt hnum hshort (hok.displayed a ha') (hok.int a ha') kgctrl.ret hmem
    unfold kongouPage at ht
    rw [List.mem_append, List.mem_append, List.mem_cons, List.mem_map, List.mem_singleton] at ht
    simp only [KongouEffect.write.injEq, exists_eq_right] at ht
    rcases ht with ((rfl | ht) | ht) | rfl
    · decide
    · cases attempts with
      | none => cases ht
      | some as =>
        dsimp only at ht
        rw [List.cons_append, List.mem_cons, List.mem_append, List.mem_singleton] at ht
        simp only [KongouEffect.write.injEq] at ht
        rcases ht with rfl | ht | rfl
        · decide
        · exact hlist as rfl ht
        · decide
    · exact hform t ht
    · decide

section Body
variable {kgctrl : Kgctrl} {staleGot staleInfo : Stale} {path : Bytes} {control : KongouControl}

theorem kongouBody_ok (h : pageControl kgctrl staleGot staleInfo path = some (.ok control))
    (fuel : Nat) :
    kongouBody fuel kgctrl staleGot staleInfo path =
      (controlPage fuel kgctrl control path).map .ok := by
  unfold kongouBody
  simp only [h, Option.bind_eq_bind, Option.bind_some]
  cases controlPage fuel kgctrl control path <;> rfl

/-- **The page.** What a request can make the page do, for every path and query: with controls
that were read, each field is tried at most once, and with a number; the commands are `kgctrl set`
with the number of a field and a new value in its range, and no array is too short for them or for
what is written. Outputs that fit give such controls, and the same ones whatever the buffers
held. -/
theorem kongouBody_safe {fuel : Nat} {result : Except KongouFault (List KongouEffect)}
    (h : kongouBody fuel kgctrl staleGot staleInfo path = some result) :
    (∀ control, pageControl kgctrl staleGot staleInfo path = some (.ok control) →
      NamesShort control → ∃ effects attempts, result = .ok effects ∧ (attempts = none ↔ 63 ∉ path) ∧
        SafePage kgctrl control attempts effects) ∧
    (KgctrlFits kgctrl path → ∃ control, NamesShort control ∧
      ∀ staleGot staleInfo, pageControl kgctrl staleGot staleInfo path = some (.ok control)) := by
  refine ⟨fun control hcontrol hshort => ?_, pageControl_fits⟩
  rw [kongouBody_ok hcontrol] at h
  obtain ⟨effects, hpage, rfl⟩ := Option.map_eq_some_iff.mp h
  obtain ⟨attempts, hquery, hsafe⟩ := safePage (numbered_page hcontrol) hshort hpage
  exact ⟨effects, attempts, rfl, hquery, hsafe⟩

/-- A page for any path: exactly where every item of the query has a value. -/
theorem kongouBody_ends_iff (h : pageControl kgctrl staleGot staleInfo path = some (.ok control)) :
    (∃ fuel, (kongouBody fuel kgctrl staleGot staleInfo path).isSome) ↔
      ∀ q, queryOf path = some q →
        Delimited (ascii "=") (ascii "&") ((cstr (q ++ [0])).take q.length) := by
  simp only [kongouBody_ok h, Option.isSome_map]
  have hends : ∀ q, queryOf path = some q →
      ((∃ fuel, (controlPage fuel kgctrl control path).isSome) ↔
        ParseEnds (q ++ [0]) q.length .query) := by
    intro q hq
    refine exists_congr fun fuel => ?_
    simp only [controlPage, hq]
    cases paramsNewParse fuel (q ++ [0]) q.length .query <;> rfl
  cases hq : queryOf path with
  | none =>
    refine iff_of_true ⟨0, ?_⟩ (by simp)
    simp [controlPage, hq]
  | some q =>
    rw [hends q hq, parseEnds_query_iff]
    simp

end Body

/-- Two fields by their names, a name that is no field's, and a value out of range. -/
def zoomPath : Bytes := ascii "/kongou.html?EZOOM=64&rm=1;id&MIRROR=9"

/-- A `kgctrl` that says nothing, and runs every command. -/
def silentKgctrl : Kgctrl := ⟨[], [], fun _ => 0⟩

theorem silentKgctrl_fits (path : Bytes) : KgctrlFits silentKgctrl path :=
  ⟨.inl rfl, fun _ => .inl rfl, fun _ => by decide⟩

theorem kongouBody_safe_zoom : ∃ effects,
    kongouBody 4 silentKgctrl zeros zeros zoomPath = some (.ok effects) ∧
    commands effects = [ascii "kgctrl set 5 5 64"] ∧
    ∃ control attempts, (attempts = none ↔ 63 ∉ zoomPath) ∧
      SafePage silentKgctrl control attempts effects := by
  have hcontrol : pageControl silentKgctrl zeros zeros zoomPath =
      some (.ok (kongouControlInit [] none)) := rfl
  have hcommands : (controlPage 4 silentKgctrl (kongouControlInit [] none) zoomPath).map commands =
      some [ascii "kgctrl set 5 5 64"] := by decide +kernel
  obtain ⟨effects, hpage, hset⟩ := Option.map_eq_some_iff.mp hcommands
  have hbody : kongouBody 4 silentKgctrl zeros zeros zoomPath = some (.ok effects) := by
    rw [kongouBody_ok hcontrol, hpage]
    rfl
  obtain ⟨hsafe, hfits⟩ := kongouBody_safe hbody
  obtain ⟨control, hshort, hsame⟩ := hfits (silentKgctrl_fits zoomPath)
  obtain ⟨effects', attempts, heq, hquery, hpage⟩ := hsafe control (hsame zeros zeros) hshort
  obtain rfl := Except.ok.inj heq
  exact ⟨effects, hbody, hset, control, attempts, hquery, hpage⟩

end Sighttpd.L4
