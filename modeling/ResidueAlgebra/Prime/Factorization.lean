import ResidueAlgebra.Word

/-!
# Factorizations

A factorization pairs primes with exponents, in ascending order of the primes; the order is part of
the type. Exponents live in a short word. Adding a power that would leave the word is a breach and
leaves the factorization as it was.
-/
set_option autoImplicit false
namespace ResidueAlgebra

abbrev PrimePower : Type := Nat × Nat

/-- Raises the exponent of `prime` by `power`, keeping the entries ascending. -/
def PrimePower.insert (prime power : Nat) : List PrimePower → Outcome (List PrimePower)
  | [] => do
      let total ← Word.fit Word.short power
      .ok [(prime, total)]
  | (key, exponent) :: rest =>
      if prime < key then do
        let total ← Word.fit Word.short power
        .ok ((prime, total) :: (key, exponent) :: rest)
      else if prime = key then do
        let total ← Word.fit Word.short (exponent + power)
        .ok ((key, total) :: rest)
      else do
        let rest ← PrimePower.insert prime power rest
        .ok ((key, exponent) :: rest)

def PrimePower.Ascending (entries : List PrimePower) : Prop :=
  entries.Pairwise fun left right => left.1 < right.1

instance (entries : List PrimePower) : Decidable (PrimePower.Ascending entries) :=
  inferInstanceAs (Decidable (List.Pairwise _ entries))

/-- The keys after an insertion are the inserted one and those that were there before. -/
theorem PrimePower.insert_keys {prime power : Nat} {entries result : List PrimePower}
    (success : PrimePower.insert prime power entries = .ok result) (q : Nat) :
    q ∈ result.map Prod.fst ↔ q = prime ∨ q ∈ entries.map Prod.fst := by
  induction entries generalizing result with
  | nil =>
      obtain ⟨total, _, success⟩ := Outcome.bind_eq_ok success
      cases success
      simp
  | cons head rest ih =>
      obtain ⟨key, exponent⟩ := head
      rw [PrimePower.insert] at success
      split at success
      · obtain ⟨total, _, success⟩ := Outcome.bind_eq_ok success
        cases success
        simp
      · split at success
        · rename_i found
          obtain ⟨total, _, success⟩ := Outcome.bind_eq_ok success
          cases success
          simp [found]
        · obtain ⟨tail, inner, success⟩ := Outcome.bind_eq_ok success
          cases success
          rw [List.map_cons, List.map_cons, List.mem_cons, List.mem_cons, ih inner, or_left_comm]

theorem PrimePower.insert_ascending {prime power : Nat} {entries result : List PrimePower}
    (ordered : PrimePower.Ascending entries)
    (success : PrimePower.insert prime power entries = .ok result) :
    PrimePower.Ascending result := by
  induction entries generalizing result with
  | nil =>
      obtain ⟨total, _, success⟩ := Outcome.bind_eq_ok success
      cases success
      exact List.pairwise_singleton _ _
  | cons head rest ih =>
      obtain ⟨key, exponent⟩ := head
      obtain ⟨later, tailOrdered⟩ := List.pairwise_cons.mp ordered
      rw [PrimePower.insert] at success
      split at success
      · rename_i before
        obtain ⟨total, _, success⟩ := Outcome.bind_eq_ok success
        cases success
        refine List.pairwise_cons.mpr ⟨?_, ordered⟩
        intro entry member
        rcases List.mem_cons.mp member with rfl | present
        · exact before
        · exact Nat.lt_trans before (later entry present)
      · rename_i notBefore
        split at success
        · obtain ⟨total, _, success⟩ := Outcome.bind_eq_ok success
          cases success
          exact List.pairwise_cons.mpr ⟨later, tailOrdered⟩
        · rename_i different
          obtain ⟨tail, inner, success⟩ := Outcome.bind_eq_ok success
          cases success
          refine List.pairwise_cons.mpr ⟨?_, ih tailOrdered inner⟩
          intro entry member
          show key < entry.1
          rcases (PrimePower.insert_keys inner entry.1).mp (List.mem_map_of_mem member) with
            same | before
          · omega
          · obtain ⟨old, present, same⟩ := List.mem_map.mp before
            have above : key < old.1 := later old present
            omega

structure Factorization where
  entries : List PrimePower
  ascending : PrimePower.Ascending entries
  deriving DecidableEq

namespace Factorization

def empty : Factorization :=
  ⟨[], List.Pairwise.nil⟩

def addPower (factorization : Factorization) (prime power : Nat) : Outcome Factorization :=
  match success : PrimePower.insert prime power factorization.entries with
  | .ok entries => .ok ⟨entries, PrimePower.insert_ascending factorization.ascending success⟩
  | .error halt => .error halt

def add (factorization : Factorization) (prime : Nat) : Outcome Factorization :=
  factorization.addPower prime 1

/-- Adds the given powers one after another. A breach stops the run, and the powers added before it
stay. -/
def absorb (factorization : Factorization) : List PrimePower → Factorization × Outcome Unit
  | [] => (factorization, .ok ())
  | (prime, power) :: rest =>
      match factorization.addPower prime power with
      | .ok grown => grown.absorb rest
      | .error halt => (factorization, .error halt)

/-- The factorization built from scratch out of the given powers. -/
def ofPowers (powers : List PrimePower) : Outcome Factorization :=
  match empty.absorb powers with
  | (total, .ok _) => .ok total
  | (_, .error halt) => .error halt

/-- Exponents are added prime by prime. -/
def combine (left right : Factorization) : Outcome Factorization :=
  match left.absorb right.entries with
  | (total, .ok _) => .ok total
  | (_, .error halt) => .error halt

def exponent (factorization : Factorization) (prime : Nat) : Nat :=
  ((factorization.entries.find? fun entry => entry.1 == prime).map Prod.snd).getD 0

def primes (factorization : Factorization) : List Nat :=
  factorization.entries.map Prod.fst

def size (factorization : Factorization) : Nat :=
  factorization.entries.length

def isEmpty (factorization : Factorization) : Bool :=
  factorization.entries.isEmpty

/-- Product of all prime powers, each power formed before it is multiplied in. -/
def value (factorization : Factorization) : Outcome Nat :=
  factorization.entries.foldlM
    (fun product entry => do
      let power ← Word.power Word.wide entry.1 entry.2
      Word.fit Word.wide (product * power))
    1

/-- Sum of logarithm terms such as `2*log2 + 1*log5`. -/
def logTerms (factorization : Factorization) : String :=
  if factorization.isEmpty then
    "0"
  else
    " + ".intercalate (factorization.entries.map fun (prime, power) => s!"{power}*log{prime}")

def text (factorization : Factorization) : String :=
  if factorization.isEmpty then
    "1"
  else
    " * ".intercalate (factorization.entries.map fun (prime, power) => s!"{prime}^{power}")

end Factorization

end ResidueAlgebra
