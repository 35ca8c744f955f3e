import Mathlib
import LocalScope.Code.Kind

/-! A traversal with a state, child after child. What it gives can be read off from the children,
each beside the state in which its turn comes. -/
namespace LocalScope

variable {α β γ σ : Type}

namespace Kind

theorem traverseSlots_map {m : Type → Type} [Monad m] [LawfulMonad m]
    (h : SlotMap m α β) (h' : SlotMap m α γ) (g : γ → β) (one : ∀ x, h.one x = g <$> h'.one x)
    (optional : ∀ x, h.optional x = Option.map g <$> h'.optional x)
    (many : ∀ xs, h.many xs = List.map g <$> h'.many xs) (k : Kind α) :
    k.traverseSlots h = Kind.map g <$> k.traverseSlots h' := by
  cases k <;> simp [traverseSlots, one, optional, many, map]

end Kind

namespace Traversal

variable (f : α → StateM σ β)

def outcome (turn : α × σ) : β := ((f turn.1).run turn.2).1

def turns : σ → List α → List (α × σ)
  | _, [] => []
  | s, x :: xs => (x, s) :: turns ((f x).run s).2 xs

def after : σ → List α → σ
  | s, [] => s
  | s, x :: xs => after ((f x).run s).2 xs

def turnSlots : SlotMap (StateM σ) α (α × σ) where
  one x := fun s => ((x, s), ((f x).run s).2)
  optional x := fun s => (x.map fun x => (x, s), after f s x.toList)
  many xs := fun s => (turns f s xs, after f s xs)

def turnKind (s : σ) (k : Kind α) : Kind (α × σ) := ((k.traverseSlots (turnSlots f)).run s).1

theorem turns_append (s : σ) (xs ys : List α) :
    turns f s (xs ++ ys) = turns f s xs ++ turns f (after f s xs) ys := by
  induction xs generalizing s with
  | nil => rfl
  | cons x xs ih => simp [turns, after, ih]

theorem after_append (s : σ) (xs ys : List α) :
    after f s (xs ++ ys) = after f (after f s xs) ys := by
  induction xs generalizing s with
  | nil => rfl
  | cons x xs ih => simp [after, ih]

theorem turns_toList (s : σ) (x : Option α) :
    turns f s x.toList = (x.map fun x => (x, s)).toList := by
  cases x <;> rfl

theorem map_fst_turns (s : σ) (xs : List α) : (turns f s xs).map Prod.fst = xs := by
  induction xs generalizing s with
  | nil => rfl
  | cons x xs ih => simp [turns, ih]

theorem mapM_run (s : σ) (xs : List α) :
    (xs.mapM f).run s = ((turns f s xs).map (outcome f), after f s xs) := by
  induction xs generalizing s with
  | nil => rfl
  | cons x xs ih =>
    simp only [List.mapM_cons, StateT.run_bind, ih]
    rfl

theorem option_mapM_run (s : σ) (x : Option α) :
    (x.mapM f).run s = ((x.map fun x => (x, s)).map (outcome f), after f s x.toList) := by
  cases x <;> rfl

theorem map_fst_turnKind (s : σ) (k : Kind α) : (turnKind f s k).map Prod.fst = k := by
  have option (x : Option α) (s : σ) : (x.map fun x => (x, s)).map Prod.fst = x := by
    cases x <;> rfl
  cases k <;>
    simp [turnKind, Kind.traverseSlots, turnSlots, StateT.run, bind, StateT.bind, pure,
      StateT.pure, Kind.map, map_fst_turns, option]

theorem turnKind_spec (s : σ) (k : Kind α) :
    (turnKind f s k).children = turns f s k.children ∧
      ((k.traverseSlots (turnSlots f)).run s).2 = after f s k.children := by
  cases k <;>
    simp [turnKind, Kind.traverseSlots, turnSlots, StateT.run, bind, StateT.bind, pure,
      StateT.pure, Kind.children, Kind.slots, Slot.children, turns_append, turns_toList, turns,
      after, after_append]

theorem traverse_run (s : σ) (k : Kind α) :
    (k.traverse f).run s = ((turnKind f s k).map (outcome f), after f s k.children) := by
  have split : k.traverse f = Kind.map (outcome f) <$> k.traverseSlots (turnSlots f) := by
    apply Kind.traverseSlots_map
    · exact fun x => rfl
    · exact fun x => funext fun s => option_mapM_run f s x
    · exact fun xs => funext fun s => mapM_run f s xs
  rw [split, ← (turnKind_spec f s k).2]
  rfl

end Traversal

end LocalScope
