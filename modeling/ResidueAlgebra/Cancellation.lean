import ResidueAlgebra.Fault

/-!
# Cancellation

A token asks a computation to stop. Tokens made from one another share a flag, so cancelling one of
them is seen by all; `TokenPool` keeps the flags and says which flag each token looks at.

A computation is given the flag as it stands at the start and reads that same value at every check.
A flag that is raised while the computation runs is outside of what is described here: a run with
`requested` false is one that nobody cancels before it ends.
-/
set_option autoImplicit false
namespace ResidueAlgebra

structure Token where
  requested : Bool
  deriving DecidableEq

namespace Token

def fresh : Token :=
  ⟨false⟩

def check (token : Token) : Outcome Unit :=
  if token.requested then Outcome.fault .cancelled else .ok ()

end Token

/-- Tokens numbered in order of creation, each with the number of the flag it looks at. -/
structure TokenPool where
  flags : List Bool
  holders : List Nat

namespace TokenPool

/-- One token with a flag of its own. -/
def initial : TokenPool :=
  ⟨[false], [0]⟩

def addFresh (pool : TokenPool) : TokenPool :=
  ⟨pool.flags ++ [false], pool.holders ++ [pool.flags.length]⟩

/-- A new token that shares the flag of an existing one. -/
def share (pool : TokenPool) (index : Nat) : Option TokenPool :=
  pool.holders[index]?.map fun flag => ⟨pool.flags, pool.holders ++ [flag]⟩

def cancel (pool : TokenPool) (index : Nat) : Option TokenPool :=
  pool.holders[index]?.map fun flag => ⟨pool.flags.set flag true, pool.holders⟩

def tokens (pool : TokenPool) : List Token :=
  pool.holders.map fun flag => ⟨pool.flags[flag]?.getD false⟩

end TokenPool

end ResidueAlgebra
