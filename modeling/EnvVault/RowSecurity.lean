import Mathlib.Data.List.Basic
import Mathlib.Tactic.Common

/-!
# Row-level security

The truth values of SQL, and how the policies of a table combine: a command may
touch a row when some permissive policy for the command is true of it and no
restrictive one fails to be true. A policy that is NULL denies.
-/
namespace EnvVault.RowSecurity

/-- TRUE, FALSE or NULL. -/
abbrev Truth : Type := Option Bool

namespace Truth

def or : Truth → Truth → Truth
  | some true, _ => some true
  | _, some true => some true
  | some false, some false => some false
  | _, _ => none

def and : Truth → Truth → Truth
  | some false, _ => some false
  | _, some false => some false
  | some true, some true => some true
  | _, _ => none

def not : Truth → Truth
  | some b => some (!b)
  | none => none

/-- `x = y`, NULL when a side is. -/
def eq {α : Type} [DecidableEq α] : Option α → Option α → Truth
  | some a, some b => some (decide (a = b))
  | _, _ => none

/-- A WHERE clause or a policy keeps a row only when it is TRUE of it. -/
def passes (t : Truth) : Bool := t == some true

@[simp] theorem passes_some (b : Bool) : passes (some b) = b := by cases b <;> rfl

@[simp] theorem not_some (b : Bool) : not (some b) = some (!b) := rfl

@[simp] theorem passes_none : passes none = false := rfl

@[simp] theorem passes_or (a b : Truth) : passes (or a b) = (passes a || passes b) := by
  rcases a with _ | ⟨_ | _⟩ <;> rcases b with _ | ⟨_ | _⟩ <;> rfl

@[simp] theorem passes_and (a b : Truth) : passes (and a b) = (passes a && passes b) := by
  rcases a with _ | ⟨_ | _⟩ <;> rcases b with _ | ⟨_ | _⟩ <;> rfl

theorem passes_eq {α : Type} [DecidableEq α] (x y : Option α) :
    passes (eq x y) = true ↔ ∃ a, x = some a ∧ y = some a := by
  cases x <;> cases y <;> simp [eq, eq_comm]

theorem passes_eq_some {α : Type} [DecidableEq α] (a : α) (y : Option α) :
    passes (eq (some a) y) = decide (y = some a) := by
  cases y <;> simp [eq, eq_comm]

end Truth

/-- What a statement does with a row. -/
inductive Access : Type
  | select
  | insert
  | updateOld
  | updateNew
  | delete
deriving DecidableEq

/-- The command of a policy; `all` is FOR ALL. -/
inductive Command : Type
  | select
  | insert
  | update
  | delete
  | all
deriving DecidableEq

def Command.covers : Command → Access → Bool
  | .all, _ => true
  | .select, .select => true
  | .insert, .insert => true
  | .update, .updateOld => true
  | .update, .updateNew => true
  | .delete, .delete => true
  | _, _ => false

/-- `using?` is read for existing rows and `withCheck` for proposed ones. -/
structure Policy (ρ : Type) where
  command : Command
  restrictive : Bool
  usingExpr : ρ → Truth
  withCheck : ρ → Truth

namespace Policy
variable {ρ : Type}

def expr (p : Policy ρ) : Access → ρ → Truth
  | .insert => p.withCheck
  | .updateNew => p.withCheck
  | _ => p.usingExpr

end Policy

/-- The policies of a table let the row through. -/
def admits {ρ : Type} (ps : List (Policy ρ)) (a : Access) (r : ρ) : Bool :=
  (ps.any fun p => !p.restrictive && p.command.covers a && Truth.passes (p.expr a r)) &&
    ps.all fun p => !(p.restrictive && p.command.covers a) || Truth.passes (p.expr a r)

/-- One permissive policy for each command. -/
def perCommand {ρ : Type} (select insert updateUsing updateCheck delete : ρ → Truth) :
    List (Policy ρ) :=
  [⟨.select, false, select, select⟩,
    ⟨.insert, false, insert, insert⟩,
    ⟨.update, false, updateUsing, updateCheck⟩,
    ⟨.delete, false, delete, delete⟩]

section
variable {ρ : Type} (select insert updateUsing updateCheck delete : ρ → Truth) (r : ρ)

@[simp] theorem admits_perCommand (a : Access) :
    admits (perCommand select insert updateUsing updateCheck delete) a r = (match a with
      | .select => select r
      | .insert => insert r
      | .updateOld => updateUsing r
      | .updateNew => updateCheck r
      | .delete => delete r).passes := by
  cases a <;> simp [admits, perCommand, Command.covers, Policy.expr]

/-- A restrictive policy for all commands is a further condition on each of them. -/
theorem admits_restrictive (cond : ρ → Truth) (ps : List (Policy ρ)) (a : Access) :
    admits (⟨.all, true, cond, cond⟩ :: ps) a r = ((cond r).passes && admits ps a r) := by
  cases a <;> simp [admits, Command.covers, Policy.expr, Bool.and_left_comm]

end

end EnvVault.RowSecurity
