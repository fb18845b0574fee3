import Sighttpd.Core.Machine

/-!
# A broadcast of a growing log

A log grows at its end. A client arrives, joins at the end of the log of that moment and takes
what follows piece by piece, at its own pace: `received` is what it has taken, `pending` what it
has still to take.

* `received_append_pending`: the two are the log from where the client joined.
* `received_append`, `pending_append`: what growing does to them.
* `received_add`, `pending_add`: what taking does.
-/
namespace Sighttpd

/-- Where a client joined the log, and how much it has taken since. -/
structure Cursor where
  joined : Nat
  taken : Nat
  deriving DecidableEq, Repr

namespace Cursor
variable {α : Type}

def received (log : List α) (c : Cursor) : List α := (log.drop c.joined).take c.taken

def pending (log : List α) (c : Cursor) : List α := log.drop (c.joined + c.taken)

/-- The client has taken no more than there is. -/
def Within (log : List α) (c : Cursor) : Prop := c.joined + c.taken ≤ log.length

/-- The client takes `k` more. -/
def add (c : Cursor) (k : Nat) : Cursor := { c with taken := c.taken + k }

theorem received_append_pending (log : List α) (c : Cursor) :
    c.received log ++ c.pending log = log.drop c.joined := by
  unfold received pending
  rw [← List.drop_drop, List.take_append_drop]

@[simp] theorem received_start (log : List α) (n : Nat) : received log ⟨n, 0⟩ = [] := rfl

@[simp] theorem pending_start (log : List α) : pending log ⟨log.length, 0⟩ = [] :=
  List.drop_length ..

theorem within_start (log : List α) : Within log ⟨log.length, 0⟩ := Nat.le_refl _

theorem Within.append {log : List α} {c : Cursor} (h : Within log c) (xs : List α) :
    Within (log ++ xs) c := by
  unfold Within at *
  rw [List.length_append]
  omega

theorem received_append {log : List α} {c : Cursor} (h : Within log c) (xs : List α) :
    c.received (log ++ xs) = c.received log := by
  unfold Within at h
  unfold received
  rw [List.drop_append_of_le_length (by omega),
    List.take_append_of_le_length (by rw [List.length_drop]; omega)]

theorem pending_append {log : List α} {c : Cursor} (h : Within log c) (xs : List α) :
    c.pending (log ++ xs) = c.pending log ++ xs :=
  List.drop_append_of_le_length h

theorem Within.add {log : List α} {c : Cursor} (h : Within log c) {k : Nat}
    (hk : k ≤ (c.pending log).length) : Within log (c.add k) := by
  unfold Within at *
  unfold pending at hk
  rw [List.length_drop] at hk
  show c.joined + (c.taken + k) ≤ log.length
  omega

theorem received_add (log : List α) (c : Cursor) (k : Nat) :
    (c.add k).received log = c.received log ++ (c.pending log).take k := by
  unfold received pending add
  rw [← List.drop_drop, List.take_add]

theorem pending_add (log : List α) (c : Cursor) (k : Nat) :
    (c.add k).pending log = (c.pending log).drop k := by
  unfold pending add
  rw [List.drop_drop, Nat.add_assoc]

end Cursor

/-- The log, and for every client that has arrived its cursor, once it has joined. -/
structure Broadcast (α : Type) where
  log : List α
  cursors : List (Option Cursor)

inductive Act (α : Type) where
  | publish (xs : List α)
  | arrive
  | join (i : Nat)
  | take (i k : Nat)

namespace Broadcast
variable {α : Type}

def act (b : Broadcast α) : Act α → Option (Broadcast α)
  | .publish xs => some { b with log := b.log ++ xs }
  | .arrive => some { b with cursors := b.cursors ++ [none] }
  | .join i =>
    if b.cursors[i]? = some none then
      some { b with cursors := b.cursors.set i (some ⟨b.log.length, 0⟩) }
    else none
  | .take i k =>
    match b.cursors[i]? with
    | some (some c) =>
      if k ≤ (c.pending b.log).length then
        some { b with cursors := b.cursors.set i (some (c.add k)) }
      else none
    | _ => none

/-- What client `i` has received so far. -/
def receivedBy (b : Broadcast α) (i : Nat) : List α :=
  match b.cursors[i]? with
  | some (some c) => c.received b.log
  | _ => []

def machine (α : Type) : Machine (Broadcast α) (Act α) := ⟨act⟩

theorem exec_one (b : Broadcast α) (a : Act α) : (machine α).exec b [a] = b.act a := by
  rw [Machine.exec_cons]
  show (b.act a).bind _ = _
  cases b.act a <;> rfl

theorem act_join {b : Broadcast α} {i : Nat} (h : b.cursors[i]? = some none) :
    b.act (.join i) = some { b with cursors := b.cursors.set i (some ⟨b.log.length, 0⟩) } :=
  if_pos h

theorem act_take {b : Broadcast α} {i : Nat} {c : Cursor} (h : b.cursors[i]? = some (some c))
    {k : Nat} (hk : k ≤ (c.pending b.log).length) :
    b.act (.take i k) = some { b with cursors := b.cursors.set i (some (c.add k)) } := by
  simp only [act, h]
  exact if_pos hk

end Broadcast
end Sighttpd
