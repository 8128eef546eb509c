import Mathlib.Tactic.Common

-- The truth values of strong three-valued logic.
inductive Kleene
  | true
  | false
  | unknown
  deriving DecidableEq

namespace Kleene

def ofBool : Bool → Kleene
  | .true  => true
  | .false => false

def not : Kleene → Kleene
  | true    => false
  | false   => true
  | unknown => unknown

def and : Kleene → Kleene → Kleene
  | false, _ | _, false => false
  | true,  true         => true
  | _,     _            => unknown

def or : Kleene → Kleene → Kleene
  | true,  _ | _, true => true
  | false, false       => false
  | _,     _           => unknown

theorem not_not (a : Kleene) : a.not.not = a := by
  cases a <;> rfl

theorem not_and (a b : Kleene) : (a.and b).not = a.not.or b.not := by
  cases a <;> cases b <;> rfl

theorem not_or (a b : Kleene) : (a.or b).not = a.not.and b.not := by
  cases a <;> cases b <;> rfl

theorem ofBool_ne_unknown (b : Bool) : ofBool b ≠ unknown := by
  cases b <;> exact nofun

theorem not_ofBool (b : Bool) : (ofBool b).not = ofBool !b := by
  cases b <;> rfl

end Kleene
