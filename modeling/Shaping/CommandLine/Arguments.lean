/-!
Command line arguments: options that take a value, and the request for help.
-/

namespace Shaping.CommandLine

/-- The value of an option and the arguments that are not part of it, or the argument whose value is
missing. The value stands in the same argument behind `long=`, or in the argument behind `long` or
`short`; the last value counts. -/
def takeOption (long short : String) : List String → Except String (Option String × List String)
  | [] => .ok (none, [])
  | arg :: rest =>
    match (long ++ "=").toList.isPrefixOf? arg.toList with
    | some value => do
      let (later, others) ← takeOption long short rest
      return (later <|> some (String.ofList value), others)
    | none =>
      if arg = long ∨ arg = short then
        match rest with
        | [] => .error arg
        | value :: rest => do
          let (later, others) ← takeOption long short rest
          return (later <|> some value, others)
      else do
        let (value, others) ← takeOption long short rest
        return (value, arg :: others)

def wantsHelp (args : List String) : Bool := args.any fun arg => arg = "--help" || arg = "-h"

end Shaping.CommandLine
