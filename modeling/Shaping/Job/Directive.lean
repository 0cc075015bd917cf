/-!
Directives: the steps that a job asks for, in any order. Some need others, none may be listed twice,
and a simulation needs an input. `Directive.violations` lists everything that is wrong with a list.
-/

namespace Shaping

/-- A step of a job. -/
inductive Directive where
  | compile
  | optimize
  | verify
  | simulate
  | pack
deriving DecidableEq, Repr

/-- What is wrong with a list of directives. -/
inductive Violation where
  | empty
  | duplicate (directive : Directive)
  | missingDependency (directive required : Directive)
  | emptyInput
deriving DecidableEq, Repr

namespace Directive

def name : Directive → String
  | .compile => "compile"
  | .optimize => "optimize"
  | .verify => "verify"
  | .simulate => "simulate"
  | .pack => "pack"

/-- The directives that must be listed as well. -/
def requires : Directive → List Directive
  | .compile => []
  | .optimize | .simulate | .pack => [.compile]
  | .verify => [.optimize]

end Directive

def Violation.message : Violation → String
  | .empty => "no directives given"
  | .duplicate d => "`" ++ d.name ++ "` is listed more than once"
  | .missingDependency d required => "`" ++ d.name ++ "` requires `" ++ required.name ++ "`"
  | .emptyInput => "`simulate` requires a non-empty input"

namespace Directive

/-- Adds what a directive violates to the violations `found`, given those `front` that are listed in
front of it. A repetition is reported once, and nothing else is reported of a directive that has
been listed before. -/
def addViolations (all : List Directive) (inputLength : Nat) (front : List Directive)
    (found : List Violation) (d : Directive) : List Violation :=
  if front.contains d then
    if found.contains (.duplicate d) then found else found ++ [.duplicate d]
  else
    found ++ (d.requires.filter (!all.contains ·)).map (.missingDependency d) ++
      if d = .simulate ∧ inputLength = 0 then [.emptyInput] else []

/-- Adds what the directives behind those of `front`, newest first, violate. -/
def violationsFrom (all : List Directive) (inputLength : Nat) :
    (front : List Directive) → (found : List Violation) → List Directive → List Violation
  | _, found, [] => found
  | front, found, d :: rest =>
    violationsFrom all inputLength (d :: front) (addViolations all inputLength front found d) rest

/-- Everything that is wrong with a list of directives, for a job whose input has this length. -/
def violations (directives : List Directive) (inputLength : Nat) : List Violation :=
  violationsFrom directives inputLength [] (if directives.isEmpty then [.empty] else []) directives

end Directive

end Shaping
