import Sighttpd.L2Stream.OggLinks

/-!
# Chained streams

A chain is one link after the other, with serial numbers that are never used again.
Every page carries whether it is a header page (`chainPages`). The links dissolve in
one condition on a page and the pages in front of it:

* `chain_next`: a header page is `Legal` behind all header pages so far, a data page
  begins no stream and finds none incomplete.
-/
namespace Sighttpd.L2

/-- The pages of a link, with whether they are header pages. -/
def OggLink.pages (l : OggLink) : List (OggPage × Bool) :=
  l.headers.map (·, true) ++ l.dataPages.map (·, false)

def chainPages (links : List OggLink) : List (OggPage × Bool) := links.flatMap OggLink.pages

def chainSerials (links : List OggLink) : List Int := links.flatMap OggLink.serials

structure ChainOk (numheaders : Int → Nat) (links : List OggLink) : Prop where
  wellFormed : ∀ l ∈ links, l.WellFormed numheaders
  unique : (chainSerials links).Nodup

/-- The header pages of a sequence. -/
def headersOf (ps : List (OggPage × Bool)) : List OggPage := (ps.filter (·.2)).map (·.1)

theorem headersOf_append (ps qs : List (OggPage × Bool)) :
    headersOf (ps ++ qs) = headersOf ps ++ headersOf qs := by simp [headersOf]

theorem headersOf_header (hs : List OggPage) : headersOf (hs.map (·, true)) = hs := by
  unfold headersOf
  rw [List.filter_eq_self.mpr]
  · simp [Function.comp_def]
  · intro p hp
    obtain ⟨og, -, rfl⟩ := List.mem_map.mp hp
    rfl

theorem headersOf_data (ds : List OggPage) : headersOf (ds.map (·, false)) = [] := by
  simp [headersOf]

theorem headersOf_pages (l : OggLink) : headersOf l.pages = l.headers := by
  rw [OggLink.pages, headersOf_append, headersOf_header, headersOf_data, List.append_nil]

/-- A page of a link is one of its header pages or behind all of them. -/
theorem pages_split {l : OggLink} {pre post : List (OggPage × Bool)} {og : OggPage} {b : Bool}
    (e : l.pages = pre ++ (og, b) :: post) :
    (b = true ∧ ∃ hs more, pre = hs.map (·, true) ∧ l.headers = hs ++ og :: more) ∨
      (b = false ∧ og ∈ l.dataPages ∧ headersOf pre = l.headers) := by
  rw [OggLink.pages] at e
  rcases append_split e with ⟨more, hm⟩ | ⟨c, hc, hpre⟩
  · obtain ⟨hs, rest, h1, h2, h3⟩ := List.map_eq_append_iff.mp hm
    obtain ⟨og', rest', h4, h5, -⟩ := List.map_eq_cons_iff.mp h3
    cases h5
    exact .inl ⟨rfl, hs, rest', h2.symm, by rw [h1, h4]⟩
  · have hmem : (og, b) ∈ l.dataPages.map (·, false) := by rw [hc]; simp
    obtain ⟨x, hx, ex⟩ := List.mem_map.mp hmem
    cases ex
    obtain ⟨ds, more, -, rfl, -⟩ := List.map_eq_append_iff.mp hc
    refine .inr ⟨rfl, hx, ?_⟩
    rw [hpre, headersOf_append, headersOf_header, headersOf_data, List.append_nil]

/-! ## Links that are over -/

/-- The header pages of links that are over. -/
structure Over (numheaders : Int → Nat) (hs : List OggPage) : Prop where
  begun : ∀ og ∈ hs, og.serialno ∈ begun hs
  unique : (L2.begun hs).Nodup
  complete : ∀ s ∈ L2.begun hs, numheaders s ≤ packetsOf hs s

section Over
variable {numheaders : Int → Nat} {past hs : List OggPage} (ho : Over numheaders past)
include ho

theorem packetsOf_over {s : Int} (hs : s ∉ begun past) : packetsOf past s = 0 :=
  packetsOf_eq_zero fun og hog e => hs (e ▸ ho.begun og hog)

theorem legal_over {serials all : List Int} {og : OggPage} (hl : Legal numheaders serials hs og)
    (hsub : serials ⊆ all) (hnew : ∀ s ∈ serials, s ∉ begun past) (hin : begun hs ⊆ serials) :
    Legal numheaders all (past ++ hs) og where
  serial := hsub hl.serial
  short := by
    rw [packetsOf_append, packetsOf_over ho (hnew _ hl.serial), Nat.zero_add]
    exact hl.short
  kind := by
    have hk := hl.kind
    rw [begun_append]
    split
    · next hb =>
      rw [if_pos hb] at hk
      simp [hnew _ hl.serial, hk]
    · next hb =>
      rw [if_neg hb] at hk
      simp [hk]
  unique := by
    rw [begun_append]
    refine List.nodup_append.mpr ⟨ho.unique, hl.unique, fun a ha b hb e => ?_⟩
    exact hnew b (hin hb) (e ▸ ha)

theorem incomplete_over : incomplete numheaders past = 0 := by
  unfold incomplete
  rw [List.countP_eq_zero]
  intro s hs
  simpa using ho.complete s hs

theorem over_link {l : OggLink} (hw : l.WellFormed numheaders)
    (hnew : ∀ s ∈ l.serials, s ∉ begun past) : Over numheaders (past ++ l.headers) := by
  have hbegun : begun l.headers = l.serials := begun_headers hw
  refine ⟨fun og hog => ?_, ?_, fun s hs => ?_⟩
  · rw [begun_append]
    rcases List.mem_append.mp hog with hog | hog
    · exact List.mem_append_left _ (ho.begun og hog)
    · rw [hbegun]
      exact List.mem_append_right _ (serial_mem hw hog)
  · rw [begun_append, hbegun]
    exact List.nodup_append.mpr ⟨ho.unique, hw.unique, fun a ha b hb e => hnew b hb (e ▸ ha)⟩
  · rw [begun_append, hbegun] at hs
    rw [packetsOf_append]
    rcases List.mem_append.mp hs with hs | hs
    · exact Nat.le_add_right_of_le (ho.complete s hs)
    · exact Nat.le_trans (hw.complete s hs) (Nat.le_add_left _ _)

end Over

/-- What a page finds in front of it: `b` says whether it is a header page. -/
def Fits (numheaders : Int → Nat) (serials : List Int) (hs : List OggPage) (og : OggPage) (b : Bool) :
    Prop :=
  if b then Legal numheaders serials hs og else og.bos = false ∧ incomplete numheaders hs = 0

theorem chain_next_over {numheaders : Int → Nat} {links : List OggLink} (hc : ChainOk numheaders links)
    {past : List OggPage} (ho : Over numheaders past)
    (hnew : ∀ s ∈ chainSerials links, s ∉ begun past) {all : List Int} (hall : chainSerials links ⊆ all)
    {pre post : List (OggPage × Bool)} {og : OggPage} {b : Bool}
    (e : chainPages links = pre ++ (og, b) :: post) :
    Fits numheaders all (past ++ headersOf pre) og b := by
  induction links generalizing past pre with
  | nil =>
    rw [chainPages, List.flatMap_nil] at e
    exact absurd e.symm (by simp)
  | cons l links ih =>
    have hw : l.WellFormed numheaders := hc.wellFormed l List.mem_cons_self
    have hserials : chainSerials (l :: links) = l.serials ++ chainSerials links := List.flatMap_cons
    have hu := hc.unique
    rw [hserials] at hu hall hnew
    obtain ⟨-, hu, hdisj⟩ := List.nodup_append.mp hu
    have hnew₁ : ∀ s ∈ l.serials, s ∉ begun past := fun s hs => hnew s (List.mem_append_left _ hs)
    have ho' := over_link ho hw hnew₁
    have hbegun : begun (past ++ l.headers) = begun past ++ l.serials := by
      rw [begun_append, begun_headers hw]
    rw [chainPages, List.flatMap_cons] at e
    rcases append_split e with ⟨rest, hpages⟩ | ⟨c, hcp, hpre⟩
    · rcases pages_split hpages with ⟨rfl, hs, more, hpre, hh⟩ | ⟨rfl, hog, hpre⟩
      · rw [hpre, headersOf_header]
        have hin : begun hs ⊆ l.serials := by
          rw [← begun_headers hw, hh, begun_append]
          exact List.subset_append_left _ _
        exact legal_over ho (legal_of_link hw hh) (fun s hs => hall (List.mem_append_left _ hs))
          hnew₁ hin
      · rw [hpre]
        exact ⟨(hw.rest og (List.mem_append_right _ hog)).1, incomplete_over ho'⟩
    · -- a page of a later link finds this one over
      rw [hpre, headersOf_append, headersOf_pages, ← List.append_assoc]
      refine ih ⟨fun x hx => hc.wellFormed x (List.mem_cons_of_mem _ hx), hu⟩ ho' ?_
        (fun s hs => hall (List.mem_append_right _ hs)) hcp
      intro s hs hmem
      rw [hbegun] at hmem
      rcases List.mem_append.mp hmem with hmem | hmem
      · exact hnew s (List.mem_append_right _ hs) hmem
      · exact hdisj s hmem s hs rfl

/-- **Next page.** -/
theorem chain_next {numheaders : Int → Nat} {links : List OggLink} (hc : ChainOk numheaders links)
    {pre post : List (OggPage × Bool)} {og : OggPage} {b : Bool}
    (e : chainPages links = pre ++ (og, b) :: post) :
    Fits numheaders (chainSerials links) (headersOf pre) og b := by
  have ho : Over numheaders [] := ⟨by simp, by simp [begun], by simp [begun]⟩
  exact chain_next_over hc ho (by simp [begun]) (List.Subset.refl _) e

end Sighttpd.L2
