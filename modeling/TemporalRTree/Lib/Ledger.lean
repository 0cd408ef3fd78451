import Mathlib.Data.List.Basic

/-!
# `Lib.Ledger` — pins and locks of a buffer manager

A page has to be pinned before it is locked, and stays pinned while it is. A client that holds at most one lock
at a time has its calls replayed here against what it holds: `replay` is `none` as soon as one of them breaks
these rules, and else says what is held at the end.
-/

namespace Ledger

variable {β : Type} [DecidableEq β]

/-- A call of the buffer manager. -/
inductive Access (β : Type) where
  | pin (page : β)
  | lock (page : β)
  | unlock (page : β)
  | unpin (page : β)
  deriving DecidableEq

/-- What a client holds, with one entry for each time. -/
structure Held (β : Type) where
  pins : List β := []
  locks : List β := []
  deriving DecidableEq

/-- What is held after a call. A page is locked only where it is pinned and no page is locked, unlocked only
    where it is locked, and unpinned only where it is pinned and not locked. -/
def Held.after (held : Held β) : Access β → Option (Held β)
  | .pin page => some { held with pins := page :: held.pins }
  | .lock page => if page ∈ held.pins ∧ held.locks = [] then some { held with locks := [page] } else none
  | .unlock page => if page ∈ held.locks then some { held with locks := held.locks.erase page } else none
  | .unpin page =>
      if page ∈ held.pins ∧ page ∉ held.locks then some { held with pins := held.pins.erase page } else none

/-- What is held after a list of calls that starts with nothing held. -/
def replay (calls : List (Access β)) : Option (Held β) := calls.foldlM Held.after {}

/-- One page, pinned and locked once, or none. -/
def Held.only : Option β → Held β
  | none => {}
  | some page => { pins := [page], locks := [page] }

theorem replay_append (calls calls' : List (Access β)) :
    replay (calls ++ calls') = (replay calls).bind fun held => calls'.foldlM Held.after held :=
  List.foldlM_append

section Page
variable {calls : List (Access β)} {page : β}

/-- Reading and locking a page with nothing held. -/
theorem replay_enter (h : replay calls = some (Held.only none)) :
    replay (calls ++ [.pin page, .lock page]) = some (Held.only (some page)) := by
  rw [replay_append, h]
  simp [Held.only, Held.after]

/-- Giving the page back that is held. -/
theorem replay_leave (h : replay calls = some (Held.only (some page))) :
    replay (calls ++ [.unlock page, .unpin page]) = some (Held.only none) := by
  rw [replay_append, h]
  simp [Held.only, Held.after]

end Page

end Ledger
