import Sighttpd.L3Config.CfgRead

/-!
# What becomes of a callback's status

`status` is one field, set by every block callback and never by the end of a block,
and nothing but the end of the input ends the loop. So `COPA_STOP` stops nothing,
`COPA_SKIP_BLOCK` lasts until any later block callback returns something else, and
`copa_read` returns 0 for every file it can open.

* `statusInv_parseLine`: an assignment is reported exactly when the last result of
  a block callback, or the initial status, is `COPA_OK`.
* `honoured_iff`: exactly when the documented meaning of the results holds.
* `stop_ignored`: two block starts that both return `COPA_STOP`.
-/
namespace Sighttpd.L3

/-! ## Reading a trace -/

/-- The status a callback returned. -/
def CopaEvent.ret : CopaEvent → Option CopaStatus
  | .blockStart _ ret => ret
  | .blockEnd _ ret => ret
  | .assign .. => none

/-- A callback was called. -/
def CopaEvent.calls : CopaEvent → Bool
  | .blockStart _ ret => ret.isSome
  | .blockEnd _ ret => ret.isSome
  | .assign _ _ called => called

/-- The last status a block callback returned; `COPA_OK` to start with. -/
def lastStatus (t : List CopaEvent) : CopaStatus := t.foldl (fun s e => e.ret.getD s) .ok

/-- The blocks that are open, with whether `block_start` asked to skip them, and
whether such a block has ended already. -/
structure Blocks where
  opened : List Bool
  skipEnded : Bool

def Blocks.step (b : Blocks) : CopaEvent → Blocks
  | .blockStart _ ret => { b with opened := decide (ret = some .skipBlock) :: b.opened }
  | .blockEnd _ _ =>
    match b.opened with
    | [] => b
    | skip :: opened => ⟨opened, b.skipEnded || skip⟩
  | .assign .. => b

def blocksOf (t : List CopaEvent) : Blocks := t.foldl Blocks.step ⟨[], false⟩

/-- A block that is to be skipped is open. -/
def InSkipped (t : List CopaEvent) : Prop := true ∈ (blocksOf t).opened

/-- A tag that starts a block inside another or ends one where none is open. -/
def HasMisplacedTag (t : List CopaEvent) : Prop :=
  ∃ pre e post, t = pre ++ e :: post ∧
    match e with
    | .blockStart _ _ => (blocksOf pre).opened ≠ []
    | .blockEnd _ _ => (blocksOf pre).opened = []
    | .assign .. => False

/-! ## The documented meaning, and when it holds -/

/-- Behind a `COPA_STOP` or `COPA_STOP_ERR` no callback is called, and both
functions return that status. -/
def StopHonoured (t : List CopaEvent) (retFd ret : CopaStatus) : Prop :=
  ∀ pre e post s, t = pre ++ e :: post → e.ret = some s → s = .stop ∨ s = .stopErr →
    (∀ e' ∈ post, e'.calls = false) ∧ retFd = s ∧ ret = s

/-- No assignment is reported inside a skipped block, and behind one every
assignment outside such blocks is. -/
def SkipHonoured (supplied : Bool) (t : List CopaEvent) : Prop :=
  ∀ pre name value called post, t = pre ++ .assign name value called :: post →
    (InSkipped pre → called = false) ∧
    (supplied = true → (blocksOf pre).skipEnded = true → ¬ InSkipped pre → called = true)

/-- No block callback asks to stop. -/
def NoStop (t : List CopaEvent) : Prop := ∀ e ∈ t, e.ret ≠ some .stop ∧ e.ret ≠ some .stopErr

/-- At an assignment inside a skipped block the last callback result is not
`COPA_OK`; at one behind a skipped block and outside such blocks it is. -/
def SkipLasts (t : List CopaEvent) : Prop :=
  ∀ pre name value called post, t = pre ++ .assign name value called :: post →
    (InSkipped pre → lastStatus pre ≠ .ok) ∧
    ((blocksOf pre).skipEnded = true → ¬ InSkipped pre → lastStatus pre = .ok)

/-! ## What the parser does -/

section Parser
variable {σ : Type} (cb : Callbacks σ)

/-- The status is the last result, and assignments are reported while it is `COPA_OK`. -/
structure StatusInv (p : CopaParser σ) : Prop where
  status : p.status = lastStatus p.trace
  called : ∀ pre name value called post, p.trace = pre ++ .assign name value called :: post →
    (called = true ↔ cb.assign.isSome = true ∧ lastStatus pre = .ok)

@[simp] theorem lastStatus_append (t : List CopaEvent) (e : CopaEvent) :
    lastStatus (t ++ [e]) = e.ret.getD (lastStatus t) := by
  simp [lastStatus]

/-- An event in a longer trace is the last one or was there before. -/
theorem trace_snoc_cases {α : Type} {t pre post : List α} {e x : α}
    (h : t ++ [e] = pre ++ x :: post) :
    (pre = t ∧ x = e ∧ post = []) ∨ ∃ post', t = pre ++ x :: post' := by
  rcases List.eq_nil_or_concat post with rfl | ⟨post', y, rfl⟩
  · obtain ⟨h1, h2⟩ := List.append_inj' h rfl
    exact .inl ⟨h1.symm, (List.cons.inj h2).1.symm, rfl⟩
  · refine .inr ⟨post', ?_⟩
    rw [List.concat_eq_append, ← List.cons_append, ← List.append_assoc] at h
    exact (List.append_inj' h rfl).1

theorem statusInv_parseLine (p : CopaParser σ) (h : StatusInv cb p) :
    StatusInv cb (copaParseLine cb p) := by
  obtain ⟨hs, hc⟩ := h
  have hline := lineResult_parseLine cb p
  generalize copaParseLine cb p = q at hline ⊢
  cases hline with
  | silent input => exact ⟨hs, hc⟩
  | assign input name value =>
    obtain ⟨called, hr, hcalled⟩ : ∃ called,
        (reportAssign cb { p with input } name value).trace = p.trace ++ [.assign name value called] ∧
        (called = true ↔ cb.assign.isSome = true ∧ p.status = .ok) := by
      unfold reportAssign
      cases cb.assign with
      | none => exact ⟨false, rfl, by simp⟩
      | some f =>
        by_cases hok : p.status = .ok
        · exact ⟨true, by simp [hok], by simp [hok]⟩
        · exact ⟨false, by simp [hok], by simp [hok]⟩
    have hst : (reportAssign cb { p with input } name value).status = p.status := by
      unfold reportAssign
      split
      · split <;> rfl
      · rfl
    refine ⟨by rw [hst, hr, lastStatus_append, hs]; rfl, fun pre n v c post he => ?_⟩
    rw [hr] at he
    rcases trace_snoc_cases he with ⟨rfl, hx, -⟩ | ⟨post', ht⟩
    · cases hx
      rw [hcalled, hs]
    · exact hc pre n v c post' ht
  | block input isEnd block =>
    obtain ⟨e, hr, hst, hne⟩ : ∃ e,
        (reportBlock cb { p with input } isEnd block).trace = p.trace ++ [e] ∧
        (reportBlock cb { p with input } isEnd block).status = e.ret.getD p.status ∧
        ∀ n v c, e ≠ .assign n v c := by
      unfold reportBlock
      cases isEnd with
      | false => cases cb.blockStart with
        | none => exact ⟨_, rfl, rfl, fun _ _ _ h => CopaEvent.noConfusion h⟩
        | some f => exact ⟨_, rfl, rfl, fun _ _ _ h => CopaEvent.noConfusion h⟩
      | true => cases cb.blockEnd with
        | none => exact ⟨_, rfl, rfl, fun _ _ _ h => CopaEvent.noConfusion h⟩
        | some f => exact ⟨_, rfl, rfl, fun _ _ _ h => CopaEvent.noConfusion h⟩
    refine ⟨by rw [hst, hr, lastStatus_append, hs], fun pre n v c post he => ?_⟩
    rw [hr] at he
    rcases trace_snoc_cases he with ⟨-, hx, -⟩ | ⟨post', ht⟩
    · exact absurd hx.symm (hne n v c)
    · exact hc pre n v c post' ht

theorem statusInv_readFd (fd : List (Option Bytes)) (user : σ) :
    StatusInv cb (copaReadFd cb fd user).2 := by
  rw [readFd_loop]
  apply copaLoop_preserves cb (statusInv_parseLine cb)
  exact ⟨rfl, fun pre _ _ _ post h => absurd h (by simp)⟩

/-- For a file that can be opened `copa_read` returns `COPA_OK`, whatever was found. -/
theorem copaRead_ok (fd : List (Option Bytes)) (user : σ) : (copaRead cb (some fd) user).1 = .ok := rfl

theorem stopHonoured_iff (fd : List (Option Bytes)) (user : σ) :
    StopHonoured (copaReadFd cb fd user).2.trace (copaReadFd cb fd user).1
      (copaRead cb (some fd) user).1 ↔ NoStop (copaReadFd cb fd user).2.trace := by
  constructor
  · intro h e he
    obtain ⟨pre, post, ht⟩ := List.append_of_mem he
    constructor
    · intro hret
      exact absurd (h pre e post _ ht hret (.inl rfl)).2.2 (by rw [copaRead_ok]; decide)
    · intro hret
      exact absurd (h pre e post _ ht hret (.inr rfl)).2.2 (by rw [copaRead_ok]; decide)
  · intro h pre e post s ht hret hs
    have he := h e (by rw [ht]; simp)
    rcases hs with rfl | rfl
    · exact absurd hret he.1
    · exact absurd hret he.2

theorem skipHonoured_iff (fd : List (Option Bytes)) (user : σ) :
    SkipHonoured cb.assign.isSome (copaReadFd cb fd user).2.trace ↔
      (cb.assign.isSome = true → SkipLasts (copaReadFd cb fd user).2.trace) := by
  have hc := (statusInv_readFd cb fd user).called
  constructor
  · intro h hsup pre name value called post ht
    obtain ⟨h1, h2⟩ := h pre name value called post ht
    have hcall := hc pre name value called post ht
    refine ⟨fun hin hok => ?_, fun hend hin => (hcall.mp (h2 hsup hend hin)).2⟩
    rw [h1 hin] at hcall
    exact absurd (hcall.mpr ⟨hsup, hok⟩) (by simp)
  · intro h pre name value called post ht
    have hcall := hc pre name value called post ht
    refine ⟨fun hin => ?_, fun hsup hend hin =>
      hcall.mpr ⟨hsup, ((h hsup) pre name value called post ht).2 hend hin⟩⟩
    by_contra hne
    obtain ⟨hsup, hok⟩ := hcall.mp (by simpa using hne)
    exact ((h hsup) pre name value called post ht).1 hin hok

end Parser

/-- **Callback results.** For every file and all callbacks, the results of the block
callbacks mean what is documented exactly when none of them asks to stop, the last
result at every assignment inside a skipped block is not `COPA_OK`, and at every
assignment behind such a block it is. A file that can be opened is never rejected by
`cfg_read`, so that it has to have its tags in place. -/
theorem honoured_iff {σ δ ρ : Type} (cb : Callbacks σ) (user : σ) (m : CfgModules δ ρ)
    (fd : List (Option Bytes)) :
    ((StopHonoured (copaReadFd cb fd user).2.trace (copaReadFd cb fd user).1
          (copaRead cb (some fd) user).1 ∧
        SkipHonoured cb.assign.isSome (copaReadFd cb fd user).2.trace) ↔
      NoStop (copaReadFd cb fd user).2.trace ∧
        (cb.assign.isSome = true → SkipLasts (copaReadFd cb fd user).2.trace)) ∧
    ((HasMisplacedTag (copaReadFd (cfgCallbacks m) fd ⟨m.dictionaryNew, none, []⟩).2.trace →
        cfgRead m (some fd) = none) ↔
      ¬ HasMisplacedTag (copaReadFd (cfgCallbacks m) fd ⟨m.dictionaryNew, none, []⟩).2.trace) := by
  refine ⟨and_congr (stopHonoured_iff cb fd user) (skipHonoured_iff cb fd user),
    fun h hm => ?_, fun h hm => absurd hm h⟩
  have hread : cfgRead m (some fd) =
      some (copaRead (cfgCallbacks m) (some fd) ⟨m.dictionaryNew, none, []⟩).2.user := by
    simp only [cfgRead, copaRead_ok, if_true]
  exact absurd (h hm) (by simp [hread])

/-- Every block start asks to stop. -/
def stopping : Callbacks Unit where
  blockStart := some fun _ u => (.stop, u)
  blockEnd := none
  assign := none

/-- **A stop that is ignored.** The callback is called again for the second block,
and `copa_read` returns `COPA_OK`. -/
theorem stop_ignored :
    ¬ ∀ (σ : Type) (cb : Callbacks σ) (fd : List (Option Bytes)) (user : σ),
      StopHonoured (copaReadFd cb fd user).2.trace (copaReadFd cb fd user).1
        (copaRead cb (some fd) user).1 := by
  intro h
  have ht : (copaReadFd stopping [some (ascii "<a>\n<b>\n")] ()).2.trace =
      [.blockStart (ascii "a") (some .stop), .blockStart (ascii "b") (some .stop)] := by decide +kernel
  have h1 := h Unit stopping [some (ascii "<a>\n<b>\n")] ()
  rw [ht] at h1
  exact absurd ((h1 [] _ _ .stop rfl rfl (.inl rfl)).1 _ (List.mem_singleton_self _)) (by decide)

end Sighttpd.L3
