import Mathlib.Data.List.Basic
import Mathlib.Logic.Function.Basic

/-!
# A vault of secrets with their histories

What a vault of secrets is for, said without tables, keys or transactions: a secret stands
under its name in an environment, keeps every value it was given and is marked when it is
deleted. Commands create a secret, give it a next value or mark it.
-/
namespace EnvVault.AbstractVault

variable {Id : Type} [DecidableEq Id]

/-- A secret: its values, the oldest first. -/
structure SecretHistory (Id : Type) where
  environment : Id
  name : String
  values : List String
  deleted : Bool

/-- The secrets by their identifiers. -/
abbrev Vault (Id : Type) : Type := Id → Option (SecretHistory Id)

inductive Command (Id : Type) : Type
  | create (id environment : Id) (name value : String)
  | rotate (id : Id) (value : String)
  | delete (id : Id)

namespace Command

/-- The secret that the command is about. -/
def subject : Command Id → Id
  | create id _ _ _ => id
  | rotate id _ => id
  | delete id => id

/-- What becomes of that secret. -/
def result : Command Id → Option (SecretHistory Id) → Option (SecretHistory Id)
  | create _ environment name value, _ => some ⟨environment, name, [value], false⟩
  | rotate _ value, entry => entry.map fun e => { e with values := e.values ++ [value] }
  | delete _, entry => entry.map fun e => { e with deleted := true }

/-- A secret is created once, and only what exists is changed. -/
def Allowed (V : Vault Id) : Command Id → Prop
  | create id _ _ _ => V id = none
  | rotate id _ => V id ≠ none
  | delete id => V id ≠ none

end Command

namespace Vault

def empty : Vault Id := fun _ => none

def exec (V : Vault Id) (c : Command Id) : Vault Id :=
  Function.update V c.subject (c.result (V c.subject))

/-- The vault after a list of commands. -/
def replay (cs : List (Command Id)) : Vault Id := cs.foldl exec empty

/-- Every command is allowed where it stands. -/
def Legal (cs : List (Command Id)) : Prop :=
  ∀ pre c, pre ++ [c] <+: cs → c.Allowed (replay pre)

@[simp] theorem exec_subject (V : Vault Id) (c : Command Id) :
    V.exec c c.subject = c.result (V c.subject) := by simp [exec]

theorem exec_other (V : Vault Id) {c : Command Id} {x : Id} (h : x ≠ c.subject) :
    V.exec c x = V x := by simp [exec, h]

@[simp] theorem replay_nil : replay ([] : List (Command Id)) = empty := rfl

@[simp] theorem replay_snoc (cs : List (Command Id)) (c : Command Id) :
    replay (cs ++ [c]) = (replay cs).exec c := by simp [replay]

theorem legal_nil : Legal ([] : List (Command Id)) := by
  intro pre c h
  have hlen := h.length_le
  simp at hlen

theorem Legal.snoc {cs : List (Command Id)} {c : Command Id} (h : Legal cs)
    (hc : c.Allowed (replay cs)) : Legal (cs ++ [c]) := by
  intro pre d hpre
  rcases List.prefix_concat_iff.mp hpre with heq | hpre
  · obtain ⟨rfl, hd⟩ := List.append_inj' heq rfl
    obtain rfl := List.singleton_inj.mp hd
    exact hc
  · exact h pre d hpre

end Vault

end EnvVault.AbstractVault
