/-! How many arguments a function takes. -/
namespace KinQuery

inductive Arity where
  | exactly (n : Nat)
  | atLeast (n : Nat)
  | between (low high : Nat)
  deriving DecidableEq

namespace Arity

def accepts : Arity → Nat → Bool
  | .exactly n, count => count = n
  | .atLeast n, count => n ≤ count
  | .between low high, count => low ≤ count && count ≤ high

/-- A count of arguments in words. -/
def counted (n : Nat) : String :=
  toString n ++ if n = 1 then " argument" else " arguments"

def text : Arity → String
  | .exactly n => "exactly " ++ counted n
  | .atLeast n => "at least " ++ counted n
  | .between low high => toString low ++ " to " ++ toString high ++ " arguments"

end Arity
end KinQuery
