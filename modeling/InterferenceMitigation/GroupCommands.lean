import InterferenceMitigation.FreezeControl
import Mathlib.Logic.Function.Basic

/-!
How the Linux runner obeys the commands that come with the messages of its children.
A command freezes or unfreezes the process group it names, and is ignored when the
runner has no such group. What a group ends up as is what the last command naming it
asked for.
-/

namespace InterferenceMitigation.GroupCommands

open FreezeControl

/-- A message that may carry a command. -/
class Ipc (T : Type*) where
  irq : T → Option Irq

/-- The process groups of a runner, by number, and whether each is frozen. -/
abbrev Groups := ℕ → Option Bool

namespace Groups

/-- Newly created groups are not frozen. -/
def created (ids : List ℕ) : Groups := fun id => if id ∈ ids then some false else none

def set (groups : Groups) (id : ℕ) (frozen : Bool) : Groups :=
  Function.update groups id ((groups id).map fun _ => frozen)

def handle (groups : Groups) : Option Irq → Groups
  | some (.freeze id) => groups.set id true
  | some (.unfreeze id) => groups.set id false
  | none => groups

end Groups

variable {T : Type*} [Ipc T]

def consume (groups : Groups) (messages : List T) : Groups :=
  messages.foldl (fun groups x => groups.handle (Ipc.irq x)) groups

/-- What a message asks for group `id`. -/
def request (id : ℕ) (x : T) : Option Bool :=
  match Ipc.irq x with
  | some (.freeze id') => if id' = id then some true else none
  | some (.unfreeze id') => if id' = id then some false else none
  | none => none

def lastRequest (id : ℕ) (messages : List T) : Option Bool :=
  (messages.filterMap (request id)).getLast?

theorem Groups.handle_apply (groups : Groups) (x : T) (id : ℕ) :
    groups.handle (Ipc.irq x) id = (groups id).map fun b => (request id x).getD b := by
  unfold request
  cases Ipc.irq x with
  | none => simp [handle]
  | some irq =>
    cases irq with
    | freeze id' | unfreeze id' =>
      by_cases h : id' = id
      · subst h
        simp [handle, set]
      · simp [handle, set, Function.update_of_ne (Ne.symm h), h]

@[simp] theorem consume_nil (groups : Groups) : consume groups ([] : List T) = groups := rfl

theorem consume_concat (groups : Groups) (messages : List T) (x : T) :
    consume groups (messages ++ [x]) = (consume groups messages).handle (Ipc.irq x) := by
  simp [consume]

theorem lastRequest_append (id : ℕ) (xs ys : List T) :
    lastRequest id (xs ++ ys) = (lastRequest id ys).or (lastRequest id xs) := by
  rw [lastRequest, List.filterMap_append, List.getLast?_append]
  rfl

/-- Each group is as the last message naming it asked for. -/
theorem consume_apply (groups : Groups) (messages : List T) (id : ℕ) :
    consume groups messages id =
      (groups id).map fun b => (lastRequest id messages).getD b := by
  induction messages using List.reverseRecOn with
  | nil => simp [lastRequest]
  | append_singleton messages x ih =>
    rw [consume_concat, Groups.handle_apply, ih, Option.map_map, lastRequest_append]
    congr 1
    funext b
    cases hx : request id x <;> simp [lastRequest, hx]

end InterferenceMitigation.GroupCommands
