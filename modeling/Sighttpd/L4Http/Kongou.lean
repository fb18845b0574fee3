import Mathlib.Data.List.OfFn
import Mathlib.Logic.Function.Basic
import Sighttpd.Core.Numeral

/-!
# The form of the camera controls (`kongou.c`)

The form writes the value of a field with `0x%04x`, and what is sent back is read with
`atoi`, which stops at the `x`. What `kgctrl` says is a parameter: the lines that
`sscanf` reads of it.

* `namesDistinct_init`: fields initialised with distinct names are found by them.
* `formKept_iff`: which forms, sent back as they are, change nothing.
-/
namespace Sighttpd.L4
open Sighttpd.CString Sighttpd.Numeral

abbrev maxField : Nat := 128

def maxName : Nat := 32

/-- mirrors src/kongou.c:23-30 (`kongou_field`) -/
structure KongouField where
  name : Bytes
  no : Int
  rangeMin : Int
  rangeMax : Int
  dflt : Int
  value : Int
  deriving DecidableEq, Repr

/-- mirrors src/kongou.c:32-34 (`kongou_control`) -/
structure KongouControl where
  fields : Fin maxField → KongouField

/-- A line of `kgctrl info`. -/
structure FieldInfo where
  no : Fin maxField
  name : Bytes
  rangeMin : Int
  rangeMax : Int
  dflt : Int

/-- After the `memset` -/
def KongouControl.zeroed : KongouControl := ⟨fun _ => ⟨[], 0, 0, 0, 0, 0⟩⟩

/-- mirrors src/kongou.c:52-65 (`kongou_field_init`) -/
def kongouFieldInit (control : KongouControl) (f : FieldInfo) : KongouControl :=
  ⟨Function.update control.fields f.no {
    no := f.no, name := f.name.take maxName, rangeMin := f.rangeMin, rangeMax := f.rangeMax,
    dflt := f.dflt, value := (control.fields f.no).value }⟩

/-- mirrors src/kongou.c:67-74 (`kongou_field_got`) -/
def kongouFieldGot (control : KongouControl) (got : Fin maxField × Int) : KongouControl :=
  ⟨Function.update control.fields got.1 { control.fields got.1 with value := got.2 }⟩

/-- mirrors src/kongou.c:36-50 (`kongou_get_field`) -/
def kongouGetField (control : KongouControl) (fieldname : Bytes) : Option KongouField :=
  (List.ofFn control.fields).find? fun f => strcmp fieldname f.name = 0

/-- mirrors src/kongou.c:76-98 (`kongou_control_get_all`) -/
def kongouControlGetAll (control : KongouControl) (got : List (Fin maxField × Int)) : KongouControl :=
  got.foldl kongouFieldGot control

/-- mirrors src/kongou.c:100-108 (`kongou_control_init_short`) -/
def shortFields : List FieldInfo :=
  [⟨5, ascii "EZOOM", 0, 0xe0, 0⟩, ⟨6, ascii "MIRROR", 0, 3, 0⟩, ⟨7, ascii "EFFECT", 0, 3, 0⟩]

/-- mirrors src/kongou.c:110-140 (`kongou_control_init`): `got` are the lines of
`kgctrl get-all`, `info` those of `kgctrl info` when it was asked and said anything -/
def kongouControlInit (got : List (Fin maxField × Int)) (info : Option (List FieldInfo)) :
    KongouControl :=
  (info.getD shortFields).foldl kongouFieldInit (kongouControlGetAll .zeroed got)

/-! ## The form -/

/-- `0x%04x` -/
def valueText (value : Int) : Bytes :=
  ascii "0x" ++ zeroPadded 4 (natText 16 (value % 4294967296).toNat)

/-- The fields that are not skipped. -/
def displayed (control : KongouControl) : List KongouField :=
  (List.ofFn control.fields).filter (·.name ≠ [])

def fieldEntry (f : KongouField) : Bytes :=
  ascii "<tr><th>" ++ f.name ++ ascii "</th><td><input name=\"" ++ f.name ++ ascii "\" value=\"" ++
    valueText f.value ++ ascii "\"/></td></tr>\n"

/-- mirrors src/kongou.c:162-187 (`kongou_field_entries`); what is written -/
def kongouFieldEntries (control : KongouControl) : List Bytes :=
  ascii "<form action=\"/kongou.html\" method=\"GET\">\n<table>\n" ::
    ((displayed control).map fieldEntry ++
      [ascii "</table><input type=\"submit\" value=\"Set\"></form>\n"])

/-! ## What is sent back -/

inductive KongouEffect where
  | write (text : Bytes)
  | system (cmd : Bytes)
  deriving DecidableEq, Repr

def rangeError (key : Bytes) (val : Int) (field : KongouField) : Bytes :=
  ascii "<li>" ++ key ++ ascii ": Value " ++ valueText val ++ ascii " out of range (" ++
    valueText field.rangeMin ++ ascii " - " ++ valueText field.rangeMax ++ ascii ")\n</li>"

def kgctrlSet (field : KongouField) (val : Int) : Bytes :=
  ascii "kgctrl set 5 " ++ decimal field.no ++ ascii " " ++ decimal val

/-- mirrors src/kongou.c:194-243 (`kongou_set_param`), where `system` returns `ret` -/
def kongouSetParam (control : KongouControl) (ret : Int) (key value : Option Bytes) :
    List KongouEffect :=
  match key, key.bind (kongouGetField control), value with
  | some key, some field, some value =>
    let val := atoi value
    if val = field.value then []
    else if val < field.rangeMin ∨ val > field.rangeMax then [.write (rangeError key val field)]
    else
      let cmd := kgctrlSet field val
      [.write (ascii "<li>Set " ++ key ++ ascii " to " ++ decimal val ++ ascii ": <tt>" ++ cmd ++
          ascii "</tt>"),
        .system cmd, .write (if ret = -1 then ascii ": ERROR" else ascii ": OK"),
        .write (ascii "</li>\n")]
  | _, _, _ => []

/-- The form sent back as it is: no command, no range error, and every number is read as it
was written. -/
structure FormKept (control : KongouControl) (ret : Int) : Prop where
  silent : ∀ f ∈ displayed control,
    kongouSetParam control ret (some f.name) (some (valueText f.value)) = []
  same : ∀ f ∈ displayed control, atoi (valueText f.value) = f.value

/-- Fields that are displayed have names of their own. -/
def NamesDistinct (control : KongouControl) : Prop :=
  ∀ i j, (control.fields i).name ≠ [] → (control.fields i).name = (control.fields j).name → i = j

section Form
variable {control : KongouControl}

theorem mem_displayed {f : KongouField} :
    f ∈ displayed control ↔ ∃ i, control.fields i = f ∧ f.name ≠ [] := by
  rw [displayed, List.mem_filter, List.mem_ofFn]
  simp

theorem getField_displayed (h : NamesDistinct control) {f : KongouField} (hf : f ∈ displayed control) :
    kongouGetField control f.name = some f := by
  obtain ⟨i, rfl, hne⟩ := mem_displayed.mp hf
  cases hg : kongouGetField control (control.fields i).name with
  | none =>
    have hnone := List.find?_eq_none.mp hg (control.fields i) (List.mem_ofFn.mpr ⟨i, rfl⟩)
    exact absurd (strcmp_eq_zero.mpr rfl) (by simpa using hnone)
  | some g =>
    obtain ⟨j, rfl⟩ := List.mem_ofFn.mp (List.mem_of_find?_eq_some hg)
    have hname : (control.fields i).name = (control.fields j).name :=
      strcmp_eq_zero.mp (by simpa using List.find?_some hg)
    rw [h i j hne hname]

/-- Whatever the value, the `x` behind its 0 ends the number. -/
theorem atoi_valueText (value : Int) : atoi (valueText value) = 0 := atoi_stop _ (by decide)

/-- **The form.** Sent back as it is, it changes nothing if and only if all values are 0. -/
theorem formKept_iff (h : NamesDistinct control) (ret : Int) :
    FormKept control ret ↔ ∀ f ∈ displayed control, f.value = 0 := by
  constructor
  · intro hkept f hf
    rw [← hkept.same f hf, atoi_valueText]
  · intro hzero
    refine ⟨fun f hf => ?_, fun f hf => ?_⟩
    · have hget : (some f.name).bind (kongouGetField control) = some f := getField_displayed h hf
      simp only [kongouSetParam, hget, atoi_valueText]
      exact if_pos (hzero f hf).symm
    · rw [atoi_valueText, hzero f hf]

end Form

/-! ## Initialised fields -/

/-- The names are those of the lines. -/
def NamesOf (done : List FieldInfo) (control : KongouControl) : Prop :=
  ∀ i, (control.fields i).name ≠ [] →
    ∃ f ∈ done, f.no = i ∧ (control.fields i).name = f.name.take maxName

/-- No two lines have the same name, as far as it is kept. -/
def InfoDistinct (info : List FieldInfo) : Prop :=
  ∀ f ∈ info, ∀ g ∈ info, f.name.take maxName = g.name.take maxName → f.no = g.no

theorem namesOf_fieldInit {done : List FieldInfo} {control : KongouControl} (h : NamesOf done control)
    (f : FieldInfo) : NamesOf (f :: done) (kongouFieldInit control f) := by
  intro i hi
  by_cases hno : i = f.no
  · subst hno
    refine ⟨f, List.mem_cons_self .., rfl, ?_⟩
    simp only [kongouFieldInit, Function.update_self]
  · have hfield : (kongouFieldInit control f).fields i = control.fields i :=
      Function.update_of_ne hno ..
    rw [hfield] at hi ⊢
    obtain ⟨g, hg, hgno, hname⟩ := h i hi
    exact ⟨g, List.mem_cons_of_mem _ hg, hgno, hname⟩

theorem namesOf_fieldGot {done : List FieldInfo} {control : KongouControl} (h : NamesOf done control)
    (got : Fin maxField × Int) : NamesOf done (kongouFieldGot control got) := by
  intro i hi
  have hname : ((kongouFieldGot control got).fields i).name = (control.fields i).name := by
    by_cases hno : i = got.1
    · simp only [kongouFieldGot, hno, Function.update_self]
    · simp only [kongouFieldGot, Function.update_of_ne hno]
  rw [hname] at hi ⊢
  exact h i hi

theorem namesOf_foldl_init (info : List FieldInfo) {done : List FieldInfo}
    {control : KongouControl} (h : NamesOf done control) :
    NamesOf (info.reverse ++ done) (info.foldl kongouFieldInit control) := by
  induction info generalizing done control with
  | nil => exact h
  | cons f info ih =>
    rw [List.reverse_cons, List.append_assoc]
    exact ih (namesOf_fieldInit h f)

theorem namesOf_getAll {control : KongouControl} (h : NamesOf [] control)
    (got : List (Fin maxField × Int)) : NamesOf [] (kongouControlGetAll control got) := by
  induction got generalizing control with
  | nil => exact h
  | cons g got ih => exact ih (namesOf_fieldGot h g)

/-- Lines with distinct names give fields with distinct names. -/
theorem namesDistinct_init (got : List (Fin maxField × Int)) (info : Option (List FieldInfo))
    (h : InfoDistinct (info.getD shortFields)) : NamesDistinct (kongouControlInit got info) := by
  have hzero : NamesOf [] .zeroed := fun i hi => absurd rfl hi
  have hnames := namesOf_foldl_init (info.getD shortFields) (namesOf_getAll hzero got)
  intro i j hi hij
  obtain ⟨f, hf, rfl, hfname⟩ := hnames i hi
  obtain ⟨g, hg, rfl, hgname⟩ := hnames j (hij ▸ hi)
  rw [List.append_nil, List.mem_reverse] at hf hg
  exact h f hf g hg (by rw [← hfname, ← hgname]; exact hij)

theorem shortFields_distinct : InfoDistinct shortFields := by
  unfold InfoDistinct
  decide

/-- The short form, all values being 0. -/
theorem formKept_iff_short : NamesDistinct (kongouControlInit [] none) ∧
    (FormKept (kongouControlInit [] none) 0 ↔
      ∀ f ∈ displayed (kongouControlInit [] none), f.value = 0) :=
  have h := namesDistinct_init [] none shortFields_distinct
  ⟨h, formKept_iff h 0⟩

/-- The short form with a zoom of 64: `0x0040` is read as 0. -/
theorem zoom_reset : ¬ FormKept (kongouControlInit [(5, 64)] none) 0 := by
  intro hkept
  have hfield : (kongouControlInit [(5, 64)] none).fields 5 = ⟨ascii "EZOOM", 5, 0, 0xe0, 0, 64⟩ := by
    decide
  have hmem : (⟨ascii "EZOOM", 5, 0, 0xe0, 0, 64⟩ : KongouField) ∈
      displayed (kongouControlInit [(5, 64)] none) := mem_displayed.mpr ⟨5, hfield, by decide⟩
  have hsame := hkept.same _ hmem
  rw [atoi_valueText] at hsame
  exact absurd hsame (by decide)

end Sighttpd.L4
