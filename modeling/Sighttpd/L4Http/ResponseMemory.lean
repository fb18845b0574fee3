import Sighttpd.Core.Machine
import Sighttpd.L4Http.Response

/-!
# The array of `http_response`

Each round of the loop stores what it read, a NUL behind it, and what `memmove` moves,
and hands the array to two parsers that read it up to a NUL. A `Round` is the record of
these accesses, a `Session` a connection with the rounds so far.

A round is safe if and only if the read leaves room for its NUL, or fills the empty array
and brings a NUL itself, and the two bytes the parser of the request line steps over are
among those read (`ReadFits`).

* `responseLoop_round`: the rounds are those of the loop.
* `roundsSafe_iff`: all rounds of a run are safe exactly when all its reads fit.
-/
namespace Sighttpd.L4
open Sighttpd.CString Sighttpd.L1

/-- What a round does with the array: the stores as offset and length, `nread` and `n` of the
`memmove`, and for each parser called its pointer and the memory. -/
structure Round where
  stores : List (Nat × Nat)
  move : Option (Nat × Nat)
  parsed : List (Nat × Bytes)

/-- There is a NUL in the array at `p` or behind it. -/
def NulBehind (mem : Bytes) (p : Nat) : Prop := ∃ i, p ≤ i ∧ i < bufSize ∧ mem[i]? = some 0

structure Round.Safe (r : Round) : Prop where
  stores : ∀ a ∈ r.stores, a.1 + a.2 ≤ bufSize
  move : ∀ m ∈ r.move, m.2 ≤ m.1
  parsed : ∀ a ∈ r.parsed, NulBehind a.2 a.1

/-- The connection when the request line is looked for. -/
def afterRead (c : Connection) (b : Bytes) : Connection :=
  terminate (readInput c (some b)).2 (readInput c (some b)).1

/-- The arguments of `memmove`, if it is called. -/
def moveArgs (c : Connection) (nread : Nat) : Option (Nat × Nat) :=
  if c.init then none
  else match httpRequestParse c.s c.cur with
    | (_, none) => none
    | (n, some _) => some (nread, n)

/-- The accesses of one round that reads `b`. -/
def roundOf (c : Connection) (b : Bytes) : Round :=
  if c.n = sizeMod - 1 then ⟨[(c.cur, b.length)], none, []⟩
  else
    { stores := (c.cur, b.length) ::
        ((if b.length < bufSize then [(c.cur + b.length, 1)] else []) ++
          (moveArgs (afterRead c b) b.length).toList.map fun m => (0, (m.1 + sizeMod - m.2) % sizeMod))
      move := moveArgs (afterRead c b) b.length
      parsed := (if c.init then [] else [(c.cur, (afterRead c b).s)]) ++
        (parseRequest (afterRead c b) b.length).toList.map fun c => (0, c.s) }

/-- The connection behind a round, if there is a next one. -/
def nextRound (fuel : Nat) (c : Connection) (b : Bytes) : Option Connection :=
  if c.n = sizeMod - 1 then some (readInput c (some b)).2
  else match parseRequest (afterRead c b) b.length with
    | none => none
    | some c =>
      match paramsNewParse fuel c.s (strAt c.s 0).length .headers with
      | some [] => some (advance c)
      | _ => none

/-- A connection, until there is no next round, and the rounds so far. -/
structure Session where
  connection : Option Connection
  rounds : List Round

def Session.start (s : Bytes) (n : Nat) : Session :=
  ⟨some { s, cur := 0, rem := bufSize, n, init := false, request := none }, []⟩

/-- A `read(2)` gives between one and the `rem` bytes asked for. -/
def Session.read (fuel : Nat) (s : Session) (b : Bytes) : Option Session :=
  match s.connection with
  | none => none
  | some c =>
    if b = [] ∨ c.rem < b.length then none
    else some ⟨nextRound fuel c b, s.rounds ++ [roundOf c b]⟩

def responseMachine (fuel : Nat) : Machine Session Bytes := ⟨Session.read fuel⟩

def Session.Safe (s : Session) : Prop := ∀ r ∈ s.rounds, r.Safe

/-- The two words of the request line, and the byte behind each. -/
def steppedOver (mem : Bytes) (p : Nat) : Nat :=
  strcspn (strAt mem p) (ascii " ") + 1 +
    (strcspn (strAt mem (p + (strcspn (strAt mem p) (ascii " ") + 1))) (ascii " ") + 1)

/-- A read that the array has room for; or `n` is -1 and it is not looked at. -/
structure ReadFits (c : Connection) (b : Bytes) : Prop where
  room : b.length = c.rem → c.cur = 0 ∧ 0 ∈ b
  line : c.init = false → ∀ n req, httpRequestParse (afterRead c b).s c.cur = (n, some req) →
    steppedOver (afterRead c b).s c.cur ≤ b.length ∧
      (b.length = c.rem → n ≤ b.length ∧ 0 ∈ b.drop (min n (b.length - n)))

def Session.Fits (s : Session) (b : Bytes) : Prop :=
  ∀ c ∈ s.connection, c.n = sizeMod - 1 ∨ ReadFits c b

/-! ## Strings in memory with a NUL -/

section Mem
variable {mem : Bytes} {p : Nat}

theorem getElem?_eq_of_drop {mem' : Bytes} {i : Nat} (h : mem.drop p = mem'.drop p) (hp : p ≤ i) :
    mem[i]? = mem'[i]? := by
  have hi := congrArg (·[i - p]?) h
  simp only [List.getElem?_drop] at hi
  rwa [show p + (i - p) = i by omega] at hi

theorem nulBehind_of_mem {t post : Bytes} (h0 : 0 ∈ t) (ht : t.length ≤ bufSize) :
    NulBehind (t ++ post) 0 := by
  obtain ⟨i, hi, hget⟩ := List.getElem_of_mem h0
  refine ⟨i, Nat.zero_le _, by omega, ?_⟩
  rw [List.getElem?_append_left hi, List.getElem?_eq_getElem hi, hget]

theorem nulBehind_iff_mem {t post : Bytes} (ht : t.length = bufSize) :
    NulBehind (t ++ post) 0 ↔ 0 ∈ t := by
  refine ⟨fun ⟨i, _, hi, hget⟩ => ?_, fun h0 => nulBehind_of_mem h0 (by omega)⟩
  rw [List.getElem?_append_left (by omega)] at hget
  exact List.mem_of_getElem? hget

/-- What is consumed of a request line stays in front of a NUL if and only if the two bytes
that are stepped over do. -/
theorem consumed_le_iff {n i : Nat} {req : HttpRequest} (h0 : mem[p + i]? = some 0)
    (h : httpRequestParse mem p = (n, some req)) : n ≤ i ↔ steppedOver mem p ≤ i := by
  obtain ⟨-, -, h8, -, -, hn, -⟩ := httpRequestParse_some h rfl rfl
  have hle := strcspn_le
    (strAt mem (p + (strcspn (strAt mem p) (ascii " ") + 1) +
      (strcspn (strAt mem (p + (strcspn (strAt mem p) (ascii " ") + 1))) (ascii " ") + 1))) crlf
  rw [steppedOver]
  generalize strcspn (strAt mem (p + (strcspn (strAt mem p) (ascii " ") + 1))) (ascii " ") = q at *
  generalize strcspn (strAt mem p) (ascii " ") = w at *
  refine ⟨fun _ => by omega, fun hstep => ?_⟩
  have hversion := strAt_length_le (p := p + (w + 1) + (q + 1)) h0 (by omega)
  have hend := strAt_length_le (p := p + (w + 1) + (q + 1) + 8) h0 (by omega)
  have hspan : strspn (strAt mem (p + (w + 1) + (q + 1) + 8)) crlf ≤
      (strAt mem (p + (w + 1) + (q + 1) + 8)).length := (List.takeWhile_sublist _).length_le
  omega

end Mem

section Round
variable {c : Connection} {b : Bytes} {fuel : Nat}

/-- **The rounds are those of the loop.** -/
theorem responseLoop_round {c' : Connection} (hb : b ≠ []) (hle : b.length ≤ c.rem)
    (h : nextRound fuel c b = some c') (reads : List (Option Bytes)) :
    responseLoop fuel (some b :: reads) c = responseLoop fuel reads c' := by
  have hread : (readInput c (some b)).1 = b.length := by rw [readInput, List.take_of_length_le hle]
  rw [responseLoop, hread, if_neg (by simpa using hb)]
  rw [nextRound] at h
  split at h
  · rename_i hn
    rw [if_pos hn, Option.some.inj h]
  · rename_i hn
    rw [if_neg hn]
    rw [afterRead, hread] at h
    cases hp : parseRequest (terminate (readInput c (some b)).2 b.length) b.length with
    | none => rw [hp] at h; exact absurd h (by simp)
    | some c₁ =>
      simp only [hp] at h ⊢
      cases hparams : paramsNewParse fuel c₁.s (strAt c₁.s 0).length .headers with
      | none => rw [hparams] at h; exact absurd h (by simp)
      | some params =>
        cases params with
        | nil =>
          simp only [hparams, Option.some.injEq] at h ⊢
          rw [h]
        | cons e es => rw [hparams] at h; exact absurd h (by simp)

/-! ## The array after a read -/

/-- The cursor and what remains make up the array. -/
structure Bounded (c : Connection) : Prop where
  sum : c.cur + c.rem = bufSize
  size : bufSize ≤ c.s.length

theorem afterRead_eq (c : Connection) (b : Bytes) :
    afterRead c b = { c with s := (afterRead c b).s } := by
  rw [afterRead, terminate]
  split <;> rfl

/-- A read that leaves room has a NUL stored behind it. -/
theorem Bounded.nul (h : Bounded c) (hlt : b.length < c.rem) :
    (afterRead c b).s[c.cur + b.length]? = some 0 ∧ (afterRead c b).s.length = c.s.length := by
  obtain ⟨hsum, hsize⟩ := h
  have hlen : (store c.s c.cur b).length = c.s.length := by
    rw [length_store (by omega)]
    omega
  have hs : (afterRead c b).s = store (store c.s c.cur b) (c.cur + b.length) [0] := by
    rw [afterRead, readInput, List.take_of_length_le (by omega), terminate, if_pos (by omega)]
  rw [hs, length_store (by omega), hlen]
  refine ⟨?_, max_eq_left (by rw [List.length_singleton]; omega)⟩
  exact nul_store [] (by omega)

/-- A read that fills the empty array is the array. -/
theorem Bounded.filled (h : Bounded c) (hcur : c.cur = 0) (hfull : b.length = c.rem) :
    (afterRead c b).s = b ++ c.s.drop bufSize := by
  obtain ⟨hsum, hsize⟩ := h
  have hlen : b.length = bufSize := by omega
  rw [afterRead, readInput, List.take_of_length_le (by omega), terminate, if_neg (by simp only; omega)]
  simp only
  rw [hcur, store, List.take_zero, List.nil_append, hlen, Nat.zero_add]

/-! ## One round -/

theorem moveArgs_nread {nread : Nat} {m : Nat × Nat} (h : m ∈ moveArgs c nread) : m.1 = nread := by
  unfold moveArgs at h
  split at h
  · exact absurd h (by simp)
  · split at h
    · exact absurd h (by simp)
    · rw [← Option.some.inj h]

theorem roundOf_safe_iff (hn : c.n ≠ sizeMod - 1) (h : Bounded c) (hle : b.length ≤ c.rem) :
    (roundOf c b).Safe ↔ (b.length = c.rem → c.cur = 0) ∧
      (∀ m ∈ moveArgs (afterRead c b) b.length, m.2 ≤ m.1) ∧
      (c.init = false → NulBehind (afterRead c b).s c.cur) ∧
      ∀ c' ∈ parseRequest (afterRead c b) b.length, NulBehind c'.s 0 := by
  have hsum := h.sum
  rw [roundOf, if_neg hn]
  constructor
  · rintro ⟨hstores, hmove, hparsed⟩
    refine ⟨fun hfull => ?_, hmove, fun hi => ?_, fun c' hc' => ?_⟩
    · by_contra hcur
      have := hstores (c.cur + b.length, 1) (by rw [if_pos (by omega)]; simp)
      simp only at this
      omega
    · exact hparsed (c.cur, _) (by rw [hi]; simp)
    · refine hparsed (0, c'.s) (List.mem_append_right _ ?_)
      exact List.mem_map.mpr ⟨c', Option.mem_toList.mpr hc', rfl⟩
  · rintro ⟨hfull, hmove, hline, hheaders⟩
    refine ⟨fun a ha => ?_, hmove, fun a ha => ?_⟩
    · simp only [List.mem_cons, List.mem_append, List.mem_map, Option.mem_toList] at ha
      rcases ha with rfl | ha | ⟨m, hm, rfl⟩
      · simp only
        omega
      · split at ha
        · obtain rfl := List.mem_singleton.mp ha
          have : b.length ≠ c.rem := fun e => by
            have := hfull e
            omega
          simp only
          omega
        · exact absurd ha (by simp)
      · have hle' := hmove m hm
        have hread := moveArgs_nread hm
        have hsize : bufSize < sizeMod := by decide
        simp only
        rw [show m.1 + sizeMod - m.2 = m.1 - m.2 + sizeMod by omega, Nat.add_mod_right,
          Nat.mod_eq_of_lt (by omega)]
        omega
    · simp only [List.mem_append, List.mem_map, Option.mem_toList] at ha
      rcases ha with ha | ⟨c', hc', rfl⟩
      · split at ha
        · exact absurd ha (by simp)
        · rename_i hi
          obtain rfl := List.mem_singleton.mp ha
          exact hline (by simpa using hi)
      · exact hheaders c' hc'

/-- The array behind the move of what follows the request line. -/
def movedOver (mem : Bytes) (n nread : Nat) : Bytes := store mem 0 ((mem.drop n).take (nread - n))

theorem parseRequest_moved {n nread : Nat} {req : HttpRequest} (hc : c.init = false)
    (hp : httpRequestParse c.s c.cur = (n, some req)) (hn : n ≤ nread) (hle : nread ≤ c.s.length) :
    parseRequest c nread =
      some { c with n, s := movedOver c.s n nread, init := true, request := some req } := by
  rw [parseRequest, if_neg (by simp [hc]), hp]
  exact if_neg (by omega)

/-- The move leaves a NUL behind the bytes read where it is. -/
theorem getElem?_movedOver {mem : Bytes} {n nread i : Nat} (hle : nread ≤ mem.length) (hi : nread ≤ i) :
    (movedOver mem n nread)[i]? = mem[i]? := by
  have hlen : ((mem.drop n).take (nread - n)).length = nread - n := by
    rw [List.length_take, List.length_drop]
    omega
  exact getElem?_eq_of_drop (p := nread) (store_drop (Nat.zero_le _) (by omega)) hi

/-- Bytes at either end of a list. -/
theorem mem_ends {n : Nat} {x : UInt8} :
    x ∈ stripped b n b.length ↔ x ∈ b.drop (min n (b.length - n)) := by
  have htake : (b.drop n).take (b.length - n) = b.drop n := List.take_of_length_le (by simp)
  rw [stripped, htake, List.mem_append]
  constructor
  · rintro (h | h)
    · exact List.mem_of_mem_drop (i := n - min n (b.length - n))
        (by rwa [List.drop_drop, show min n (b.length - n) + (n - min n (b.length - n)) = n by omega])
    · refine List.mem_of_mem_drop (i := b.length - n - min n (b.length - n)) ?_
      rwa [List.drop_drop, show min n (b.length - n) + (b.length - n - min n (b.length - n)) =
        b.length - n by omega]
  · intro h
    rcases Nat.le_total n (b.length - n) with hle | hle
    · exact .inl (by rwa [Nat.min_eq_left hle] at h)
    · exact .inr (by rwa [Nat.min_eq_right hle] at h)

theorem nulBehind_afterRead {q : Nat} (h : Bounded c) (hle : b.length ≤ c.rem)
    (hroom : b.length = c.rem → c.cur = 0) (hq : q ≤ c.cur) :
    NulBehind (afterRead c b).s q ↔ (b.length = c.rem → 0 ∈ b) := by
  have hsum := h.sum
  rcases Nat.lt_or_eq_of_le hle with hlt | hfull
  · exact iff_of_true ⟨_, by omega, by omega, (h.nul hlt).1⟩ fun e => absurd e (by omega)
  · have hcur := hroom hfull
    obtain rfl : q = 0 := by omega
    rw [h.filled hcur hfull, nulBehind_iff_mem (by omega)]
    exact ⟨fun h0 _ => h0, fun h0 => h0 hfull⟩

theorem nulBehind_movedOver {n q : Nat} (h : Bounded c) (hle : b.length ≤ c.rem)
    (hroom : b.length = c.rem → c.cur = 0) (hq : q ≤ c.cur) (hn : n ≤ b.length) :
    NulBehind (movedOver (afterRead c b).s n b.length) q ↔
      (b.length = c.rem → 0 ∈ b.drop (min n (b.length - n))) := by
  have hsum := h.sum
  have hsize := h.size
  rcases Nat.lt_or_eq_of_le hle with hlt | hfull
  · obtain ⟨hnul, hlen⟩ := h.nul hlt
    refine iff_of_true ⟨c.cur + b.length, by omega, by omega, ?_⟩ fun e => absurd e (by omega)
    rwa [getElem?_movedOver (by omega) (by omega)]
  · have hcur := hroom hfull
    obtain rfl : q = 0 := by omega
    rw [h.filled hcur hfull, movedOver, store_stripped hn (Nat.le_refl _),
      nulBehind_iff_mem (by rw [length_stripped hn (Nat.le_refl _)]; omega), mem_ends]
    exact ⟨fun h0 _ => h0, fun h0 => h0 hfull⟩

theorem length_afterRead (h : Bounded c) (hle : b.length ≤ c.rem)
    (hroom : b.length = c.rem → c.cur = 0) : (afterRead c b).s.length = c.s.length := by
  have hsum := h.sum
  have hsize := h.size
  rcases Nat.lt_or_eq_of_le hle with hlt | hfull
  · exact (h.nul hlt).2
  · have hcur := hroom hfull
    rw [h.filled hcur hfull, List.length_append, List.length_drop]
    omega

/-- What is consumed lies among the bytes read exactly when both bytes that are stepped over
do, and in a full array the line break as well. -/
theorem consumed_fits {n : Nat} {req : HttpRequest} (h : Bounded c) (hle : b.length ≤ c.rem)
    (hp : httpRequestParse (afterRead c b).s c.cur = (n, some req)) :
    n ≤ b.length ↔ steppedOver (afterRead c b).s c.cur ≤ b.length ∧
      (b.length = c.rem → n ≤ b.length) := by
  rcases Nat.lt_or_eq_of_le hle with hlt | hfull
  · rw [consumed_le_iff (h.nul hlt).1 hp]
    exact ⟨fun hs => ⟨hs, fun e => absurd e (by omega)⟩, And.left⟩
  · refine ⟨fun hn => ⟨?_, fun _ => hn⟩, fun hn => hn.2 hfull⟩
    obtain ⟨-, -, -, -, -, hsize, -⟩ := httpRequestParse_some hp rfl rfl
    rw [steppedOver]
    omega

theorem parseRequest_noLine {n : Nat} (hi : c.init = false)
    (hp : httpRequestParse (afterRead c b).s c.cur = (n, none)) :
    parseRequest (afterRead c b) b.length = some { afterRead c b with n } := by
  have hfields := afterRead_eq c b
  exact parseRequest_none (by rw [hfields]; exact hi) b.length (by rw [hfields]; exact hp)

theorem parseRequest_line {n : Nat} {req : HttpRequest} (h : Bounded c) (hle : b.length ≤ c.rem)
    (hroom : b.length = c.rem → c.cur = 0) (hi : c.init = false)
    (hp : httpRequestParse (afterRead c b).s c.cur = (n, some req)) (hn : n ≤ b.length) :
    parseRequest (afterRead c b) b.length = some { afterRead c b with
      n, s := movedOver (afterRead c b).s n b.length, init := true, request := some req } := by
  have hfields := afterRead_eq c b
  have hlen := length_afterRead h hle hroom
  have hsum := h.sum
  have hsize := h.size
  exact parseRequest_moved (by rw [hfields]; exact hi) (by rw [hfields]; exact hp) hn (by omega)

theorem moveArgs_afterRead (hi : c.init = false) : moveArgs (afterRead c b) b.length =
    (httpRequestParse (afterRead c b).s c.cur).2.map
      fun _ => (b.length, (httpRequestParse (afterRead c b).s c.cur).1) := by
  have hfields := afterRead_eq c b
  have hinit : (afterRead c b).init = false := by rw [hfields]; exact hi
  have hcur : (afterRead c b).cur = c.cur := by rw [hfields]
  rw [moveArgs, if_neg (by rw [hinit]; decide), hcur]
  split
  · rename_i hp
    rw [hp]
    rfl
  · rename_i hp
    rw [hp]
    rfl

section Safe
variable (hn : c.n ≠ sizeMod - 1) (h : Bounded c) (hle : b.length ≤ c.rem)
  (hroom : b.length = c.rem → c.cur = 0)
include hn h hle hroom

/-- When only headers are parsed. -/
theorem roundOf_safe_headers (hi : c.init = true) :
    (roundOf c b).Safe ↔ (b.length = c.rem → 0 ∈ b) := by
  have hinit : (afterRead c b).init = true := by rw [afterRead_eq]; exact hi
  rw [roundOf_safe_iff hn h hle, parseRequest_init hinit, moveArgs, if_pos hinit,
    ← nulBehind_afterRead h hle hroom (Nat.zero_le _)]
  constructor
  · rintro ⟨-, -, -, hheaders⟩
    exact hheaders _ rfl
  · intro h0
    refine ⟨hroom, fun m hm => absurd hm (by simp), fun hf => absurd (hi.symm.trans hf) (by decide), ?_⟩
    rintro c' hc'
    exact Option.some.inj hc' ▸ h0

/-- When there is no request line yet. -/
theorem roundOf_safe_noLine {n : Nat} (hi : c.init = false)
    (hp : httpRequestParse (afterRead c b).s c.cur = (n, none)) :
    (roundOf c b).Safe ↔ (b.length = c.rem → 0 ∈ b) := by
  have hnul : ∀ q ≤ c.cur, NulBehind (afterRead c b).s q ↔ (b.length = c.rem → 0 ∈ b) :=
    fun q hq => nulBehind_afterRead h hle hroom hq
  rw [roundOf_safe_iff hn h hle, parseRequest_noLine hi hp, moveArgs_afterRead hi, hp]
  constructor
  · rintro ⟨-, -, hline, -⟩
    exact (hnul _ (Nat.le_refl _)).mp (hline hi)
  · intro h0
    refine ⟨hroom, fun m hm => absurd hm (by simp), fun _ => (hnul _ (Nat.le_refl _)).mpr h0, ?_⟩
    rintro c' hc'
    obtain rfl := Option.some.inj hc'
    exact (hnul 0 (Nat.zero_le _)).mpr h0

/-- When the request line is there, and what is behind it is moved. -/
theorem roundOf_safe_line {n : Nat} {req : HttpRequest} (hi : c.init = false)
    (hp : httpRequestParse (afterRead c b).s c.cur = (n, some req)) :
    (roundOf c b).Safe ↔ (b.length = c.rem → 0 ∈ b) ∧
      steppedOver (afterRead c b).s c.cur ≤ b.length ∧
      (b.length = c.rem → n ≤ b.length ∧ 0 ∈ b.drop (min n (b.length - n))) := by
  have hnul := nulBehind_afterRead h hle hroom (Nat.le_refl _)
  have hparse := parseRequest_line h hle hroom hi hp
  have hmoved := fun hn => nulBehind_movedOver (n := n) h hle hroom (Nat.zero_le _) hn
  rw [roundOf_safe_iff hn h hle, moveArgs_afterRead hi, hp]
  constructor
  · rintro ⟨-, hmove, hline, hheaders⟩
    have hn : n ≤ b.length := hmove _ rfl
    exact ⟨hnul.mp (hline hi), ((consumed_fits h hle hp).mp hn).1,
      fun e => ⟨hn, (hmoved hn).mp (hheaders _ (hparse hn)) e⟩⟩
  · rintro ⟨h0, hstep, hfull⟩
    have hn := (consumed_fits h hle hp).mpr ⟨hstep, fun e => (hfull e).1⟩
    refine ⟨hroom, fun m hm => ?_, fun _ => hnul.mpr h0, fun c' hc' => ?_⟩
    · obtain rfl := Option.some.inj hm
      exact hn
    · rw [hparse hn] at hc'
      obtain rfl := Option.some.inj hc'
      exact (hmoved hn).mpr fun e => (hfull e).2

end Safe

theorem roundOf_skipped (hn : c.n = sizeMod - 1) (h : Bounded c) (hle : b.length ≤ c.rem) :
    (roundOf c b).Safe := by
  have hsum := h.sum
  rw [roundOf, if_pos hn]
  refine ⟨fun a ha => ?_, fun m hm => absurd hm (by simp), fun a ha => absurd ha (by simp)⟩
  obtain rfl := List.mem_singleton.mp ha
  simp only
  omega

/-- **A round is safe exactly when its read fits.** -/
theorem roundOf_safe_iff_fits (h : Bounded c) (hle : b.length ≤ c.rem) :
    (roundOf c b).Safe ↔ c.n = sizeMod - 1 ∨ ReadFits c b := by
  by_cases hn : c.n = sizeMod - 1
  · exact iff_of_true (roundOf_skipped hn h hle) (.inl hn)
  have hfits : (c.n = sizeMod - 1 ∨ ReadFits c b) ↔ ReadFits c b := by simp [hn]
  rw [hfits]
  by_cases hroom : b.length = c.rem → c.cur = 0
  swap
  · refine iff_of_false (fun hs => hroom ?_) fun hf => hroom fun e => (hf.room e).1
    exact ((roundOf_safe_iff hn h hle).mp hs).1
  cases hi : c.init with
  | true =>
    rw [roundOf_safe_headers hn h hle hroom hi]
    exact ⟨fun h0 => ⟨fun e => ⟨hroom e, h0 e⟩, fun hf => absurd (hi.symm.trans hf) (by decide)⟩,
      fun hf e => (hf.room e).2⟩
  | false =>
    cases hp : httpRequestParse (afterRead c b).s c.cur with
    | mk n req =>
      cases req with
      | none =>
        rw [roundOf_safe_noLine hn h hle hroom hi hp]
        refine ⟨fun h0 => ⟨fun e => ⟨hroom e, h0 e⟩, fun _ n' req' h' => ?_⟩, fun hf e => (hf.room e).2⟩
        exact absurd (congrArg Prod.snd (hp.symm.trans h')) (by simp)
      | some req =>
        rw [roundOf_safe_line hn h hle hroom hi hp]
        constructor
        · rintro ⟨h0, hline⟩
          refine ⟨fun e => ⟨hroom e, h0 e⟩, fun _ n' req' h' => ?_⟩
          obtain ⟨rfl, -⟩ : n = n' ∧ req = req' := by simpa [hp] using h'
          exact hline
        · exact fun hf => ⟨fun e => (hf.room e).2, hf.line hi n req hp⟩

/-! ## Runs -/

/-- What the loop looks at behind a safe read. -/
theorem parseRequest_bounded {c' : Connection} (h : Bounded c) (hle : b.length ≤ c.rem)
    (hf : ReadFits c b) (hc : parseRequest (afterRead c b) b.length = some c') :
    c'.cur = c.cur ∧ c'.rem = c.rem ∧ c'.s.length = c.s.length ∧ NulBehind c'.s c.cur := by
  have hroom : b.length = c.rem → c.cur = 0 := fun e => (hf.room e).1
  have hfields := afterRead_eq c b
  have hlen := length_afterRead h hle hroom
  have hnul := (nulBehind_afterRead h hle hroom (Nat.le_refl _)).mpr fun e => (hf.room e).2
  cases hi : c.init with
  | true =>
    rw [parseRequest_init (by rw [hfields]; exact hi)] at hc
    obtain rfl := Option.some.inj hc
    exact ⟨by rw [hfields], by rw [hfields], hlen, hnul⟩
  | false =>
    cases hp : httpRequestParse (afterRead c b).s c.cur with
    | mk n req =>
      cases req with
      | none =>
        rw [parseRequest_noLine hi hp] at hc
        obtain rfl := Option.some.inj hc
        exact ⟨by rw [hfields], by rw [hfields], hlen, hnul⟩
      | some req =>
        obtain ⟨hstep, hfull⟩ := hf.line hi n req hp
        have hn := (consumed_fits h hle hp).mpr ⟨hstep, fun e => (hfull e).1⟩
        rw [parseRequest_line h hle hroom hi hp hn] at hc
        obtain rfl := Option.some.inj hc
        have hsum := h.sum
        have hsize := h.size
        refine ⟨by rw [hfields], by rw [hfields], ?_,
          (nulBehind_movedOver h hle hroom (Nat.le_refl _) hn).mpr fun e => (hfull e).2⟩
        simp only [movedOver]
        rw [length_store (Nat.zero_le _), List.length_take, List.length_drop, hlen]
        omega

theorem advance_bounded {c' : Connection} (h : Bounded c) (hcur : c'.cur = c.cur)
    (hrem : c'.rem = c.rem) (hs : c'.s.length = c.s.length) (hnul : NulBehind c'.s c.cur) :
    Bounded (advance c') := by
  obtain ⟨i, hi, hlt, h0⟩ := hnul
  obtain ⟨hsum, hsize⟩ := h
  have hlen := strAt_length_le h0 hi
  refine ⟨?_, by rw [advance]; exact hs ▸ hsize⟩
  have hmod : bufSize < sizeMod := by decide
  rw [advance]
  simp only [hcur, hrem]
  rw [show c.rem + sizeMod - (strAt c'.s c.cur).length = c.rem - (strAt c'.s c.cur).length + sizeMod by
    omega, Nat.add_mod_right, Nat.mod_eq_of_lt (by omega)]
  omega

theorem nextRound_bounded {c' : Connection} (h : Bounded c) (hle : b.length ≤ c.rem)
    (hf : c.n = sizeMod - 1 ∨ ReadFits c b) (hc : nextRound fuel c b = some c') : Bounded c' := by
  rw [nextRound] at hc
  split at hc
  · obtain rfl := Option.some.inj hc
    have hsum := h.sum
    have hsize := h.size
    refine ⟨hsum, ?_⟩
    simp only [readInput]
    rw [length_store (by omega), List.length_take]
    omega
  · rename_i hn
    cases hp : parseRequest (afterRead c b) b.length with
    | none => rw [hp] at hc; exact absurd hc (by simp)
    | some c₁ =>
      obtain ⟨hcur, hrem, hs, hnul⟩ := parseRequest_bounded h hle (hf.resolve_left hn) hp
      simp only [hp] at hc
      cases hparams : paramsNewParse fuel c₁.s (strAt c₁.s 0).length .headers with
      | none => rw [hparams] at hc; exact absurd hc (by simp)
      | some params =>
        cases params with
        | nil =>
          rw [hparams] at hc
          obtain rfl := Option.some.inj hc
          exact advance_bounded h hcur hrem hs hnul
        | cons e es => rw [hparams] at hc; exact absurd hc (by simp)

/-- What a run keeps. -/
structure Session.Inv (s : Session) : Prop where
  safe : s.Safe
  bounded : ∀ c ∈ s.connection, Bounded c

theorem Session.inv_start {s : Bytes} (hs : bufSize ≤ s.length) (n : Nat) : (start s n).Inv where
  safe r hr := absurd hr (by simp [start])
  bounded c hc := by
    obtain rfl := Option.some.inj hc
    exact ⟨Nat.zero_add _, hs⟩

theorem Session.read_start {s : Bytes} {n : Nat} (fuel : Nat) (hne : b ≠ []) (hle : b.length ≤ bufSize) :
    ∃ s', (start s n).read fuel b = some s' := by
  rw [start, read]
  exact ⟨_, if_neg (by simp only [hne, false_or]; omega)⟩

/-- What one read does to a session. -/
theorem Session.read_some {s s' : Session} (h : s.read fuel b = some s') :
    ∃ c, s.connection = some c ∧ b.length ≤ c.rem ∧
      s' = ⟨nextRound fuel c b, s.rounds ++ [roundOf c b]⟩ := by
  rw [Session.read] at h
  cases hc : s.connection with
  | none => rw [hc] at h; exact absurd h (by simp)
  | some c =>
    simp only [hc] at h
    split at h
    · exact absurd h (by simp)
    · exact ⟨c, rfl, by omega, (Option.some.inj h).symm⟩

theorem Session.inv_step {s s' : Session} (h : s.Inv) (hf : s.Fits b) (hs : s.read fuel b = some s') :
    s'.Inv := by
  obtain ⟨c, hc, hle, rfl⟩ := read_some hs
  have hb := h.bounded c hc
  refine ⟨fun r hr => ?_, fun c' hc' => nextRound_bounded hb hle (hf c hc) hc'⟩
  rcases List.mem_append.mp hr with hr | hr
  · exact h.safe r hr
  · obtain rfl := List.mem_singleton.mp hr
    exact (roundOf_safe_iff_fits hb hle).mpr (hf c hc)

theorem Session.fits_of_safe {s s' : Session} (h : s.Inv) (hs : s.read fuel b = some s')
    (hsafe : s'.Safe) : s.Fits b := by
  obtain ⟨c, hc, hle, rfl⟩ := read_some hs
  intro c' hc'
  obtain rfl : c = c' := Option.some.inj (hc.symm.trans hc')
  exact (roundOf_safe_iff_fits (h.bounded c hc) hle).mp (hsafe _ (by simp))

/-- **The array.** Along a run of reads, all accesses stay in the array, and both parsers find
their NUL, if and only if every read fits. -/
theorem roundsSafe_iff {s : Bytes} (hs : bufSize ≤ s.length) (n fuel : Nat) (reads : List Bytes) :
    (responseMachine fuel).Along Session.Safe (Session.start s n) reads ↔
      (responseMachine fuel).Guarded Session.Fits (Session.start s n) reads :=
  Machine.along_iff_guarded (fun _ h => h.safe) (fun _ _ _ => Session.inv_step)
    (fun _ _ _ => Session.fits_of_safe) (Session.inv_start hs n)

theorem roundsSafe_iff_split : bufSize ≤ (List.replicate bufSize (0 : UInt8)).length ∧
    ((responseMachine 1).Along Session.Safe (Session.start (List.replicate bufSize 0) 0)
        [ascii "GET / HT", ascii "TP/1.1\r\n"] ↔
      (responseMachine 1).Guarded Session.Fits (Session.start (List.replicate bufSize 0) 0)
        [ascii "GET / HT", ascii "TP/1.1\r\n"]) :=
  have hs : bufSize ≤ (List.replicate bufSize (0 : UInt8)).length := by rw [List.length_replicate]
  ⟨hs, roundsSafe_iff hs 0 1 _⟩

/-- A first read that fills the array and brings no NUL. -/
theorem Session.full_unsafe {s : Bytes} {n : Nat} (fuel : Nat) (hs : bufSize ≤ s.length)
    (hn : n ≠ sizeMod - 1) (hb : b.length = bufSize) (h0 : 0 ∉ b) :
    ¬ (responseMachine fuel).Along Safe (start s n) [b] := by
  intro halong
  obtain ⟨s', hread⟩ := read_start (s := s) (n := n) (b := b) fuel
    (by rintro rfl; exact absurd hb (by decide)) (Nat.le_of_eq hb)
  have hfits := fits_of_safe (inv_start hs n) hread (Machine.along_head (halong.2 s' hread))
  have hroom := ((hfits _ rfl).resolve_left hn).room hb
  exact h0 hroom.2

/-- 8192 bytes in the first read, and no NUL for the parser of the request line. -/
theorem fullRead_unsafe : ¬ (responseMachine 1).Along Session.Safe
    (Session.start (List.replicate bufSize 0) 0) [List.replicate bufSize 97] :=
  Session.full_unsafe 1 (by rw [List.length_replicate]) (by decide) List.length_replicate
    fun h0 => absurd (List.eq_of_mem_replicate h0) (by decide)

end Round

end Sighttpd.L4
