import Ramify.Formula

/-!
Programs: what a procedure of a worksheet does between two rounds of solving. A program reads the
values of the current branch, writes values, and controls the branches.
-/

namespace Ramify

/-- A condition on the values of the current branch. -/
inductive Condition (K : Type)
  /-- A resolved value is below a bound. -/
  | less (value : Formula K) (bound : K)
  /-- A resolved value is above a bound. -/
  | greater (value : Formula K) (bound : K)
  /-- A quantity, measured in a unit, is below a bound. -/
  | measuredLess (quantity target : Formula K) (bound : K)
  | resolved (values : List (Formula K))
  | variableResolved (name : String)
  | moreBranches (count : Int)
  | not (condition : Condition K)
  /-- Both conditions hold; the second one is looked at only if the first one does. -/
  | and (first second : Condition K)

inductive Program (K : Type)
  | skip
  | seq (first second : Program K)
  | choose (condition : Condition K) (yes no : Program K)
  | set (name : String) (value : Formula K)
  | delete
  | clear (name : String)
  /-- Fails unless a value is a plain number. -/
  | need (value : Formula K)
  | rotate
  | switch (index : Nat)
  | declare (names : List String)
  /-- Gives up until more is known. -/
  | giveUp (report : String)
  | fail (report : String)

/-- The programs of a list, one after the other. -/
def Program.ofList {K : Type} (programs : List (Program K)) : Program K :=
  programs.foldr .seq .skip

end Ramify
