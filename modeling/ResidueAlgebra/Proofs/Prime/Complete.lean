import Mathlib.Data.Nat.Factorization.Basic
import ResidueAlgebra.Proofs.Prime.Primality

/-!
# Trial division finds the complete factorization

`Factorization.Of` says that a factorization has exactly the prime powers of a number. Trial division
keeps, from one divisor to the next, what it has found and what remains in balance with the number
it started from; what remains at the end is one or a prime.
-/
set_option autoImplicit false
namespace ResidueAlgebra

/-! ## Adding a power -/

def PrimePower.exponentIn (entries : List PrimePower) (prime : Nat) : Nat :=
  ((entries.find? fun entry => entry.1 == prime).map Prod.snd).getD 0

namespace PrimePower

theorem exponentIn_cons (key exponent : Nat) (rest : List PrimePower) (prime : Nat) :
    exponentIn ((key, exponent) :: rest) prime
      = if key = prime then exponent else exponentIn rest prime := by
  by_cases same : key = prime
  · simp [exponentIn, same]
  · simp [exponentIn, same]

theorem exponentIn_eq_zero {entries : List PrimePower} {prime : Nat}
    (absent : ∀ entry ∈ entries, entry.1 ≠ prime) : exponentIn entries prime = 0 := by
  have missing : entries.find? (fun entry => entry.1 == prime) = none := by
    simpa using fun key exponent member => absent (key, exponent) member
  rw [exponentIn, missing]
  rfl

theorem exponentIn_of_mem {entries : List PrimePower} (ordered : Ascending entries)
    {key exponent : Nat} (member : (key, exponent) ∈ entries) :
    exponentIn entries key = exponent := by
  induction entries with
  | nil => cases member
  | cons head rest ih =>
      obtain ⟨first, power⟩ := head
      obtain ⟨later, tailOrdered⟩ := List.pairwise_cons.mp ordered
      rw [exponentIn_cons]
      rcases List.mem_cons.mp member with same | inRest
      · cases same
        rw [if_pos rfl]
      · have above : first < key := later (key, exponent) inRest
        rw [if_neg (Nat.ne_of_lt above), ih tailOrdered inRest]

theorem insert_spec {entries : List PrimePower} (ordered : Ascending entries) {prime power : Nat}
    (room : exponentIn entries prime + power < Word.short) :
    ∃ result, insert prime power entries = .ok result ∧
      (∀ q, exponentIn result q = exponentIn entries q + if q = prime then power else 0) ∧
      (0 < power → (∀ entry ∈ entries, 0 < entry.2) → ∀ entry ∈ result, 0 < entry.2) := by
  induction entries with
  | nil =>
      have fresh : exponentIn [] prime = 0 := rfl
      refine ⟨[(prime, power)], ?_, ?_, ?_⟩
      · rw [insert, Word.fit_of_lt (by omega)]
        rfl
      · intro q
        rw [exponentIn_cons]
        by_cases same : prime = q
        · simp [same, exponentIn]
        · simp [same, Ne.symm same, exponentIn]
      · intro positive _ entry member
        rw [List.mem_singleton.mp member]
        exact positive
  | cons head rest ih =>
      obtain ⟨key, exponent⟩ := head
      obtain ⟨later, tailOrdered⟩ := List.pairwise_cons.mp ordered
      rw [exponentIn_cons] at room
      -- The entry goes in front, joins the first one or is put further down.
      by_cases before : prime < key
      · have absent : exponentIn ((key, exponent) :: rest) prime = 0 := by
          apply exponentIn_eq_zero
          intro entry member
          rcases List.mem_cons.mp member with rfl | present
          · exact Nat.ne_of_gt before
          · exact Nat.ne_of_gt (Nat.lt_trans before (later entry present))
        refine ⟨(prime, power) :: (key, exponent) :: rest, ?_, ?_, ?_⟩
        · rw [insert, if_pos before, Word.fit_of_lt (by omega)]
          rfl
        · intro q
          rw [exponentIn_cons prime]
          by_cases same : prime = q
          · subst same
            simp [absent]
          · simp [same, Ne.symm same]
        · intro positive old entry member
          rcases List.mem_cons.mp member with rfl | present
          · exact positive
          · exact old entry present
      · by_cases found : prime = key
        · subst found
          rw [if_pos rfl] at room
          refine ⟨(prime, exponent + power) :: rest, ?_, ?_, ?_⟩
          · rw [insert, if_neg before, if_pos rfl, Word.fit_of_lt room]
            rfl
          · intro q
            rw [exponentIn_cons, exponentIn_cons]
            by_cases same : prime = q
            · simp [same]
            · simp [same, Ne.symm same]
          · intro positive old entry member
            rcases List.mem_cons.mp member with rfl | present
            · exact Nat.lt_of_lt_of_le positive (Nat.le_add_left ..)
            · exact old entry (List.mem_cons_of_mem _ present)
        · rw [if_neg (Ne.symm found)] at room
          obtain ⟨result, inner, exponents, kept⟩ := ih tailOrdered room
          refine ⟨(key, exponent) :: result, ?_, ?_, ?_⟩
          · rw [insert, if_neg before, if_neg found, inner]
            rfl
          · intro q
            rw [exponentIn_cons, exponentIn_cons, exponents]
            by_cases same : key = q
            · have other : q ≠ prime := by omega
              simp [same, other]
            · simp [same]
          · intro positive old entry member
            rcases List.mem_cons.mp member with rfl | present
            · exact old (key, exponent) (List.mem_cons_self ..)
            · exact kept positive (fun earlier held =>
                old earlier (List.mem_cons_of_mem _ held)) entry present

end PrimePower

namespace Factorization

def Positive (factorization : Factorization) : Prop :=
  ∀ entry ∈ factorization.entries, 0 < entry.2

theorem exponent_of_mem {factorization : Factorization} {key exponent : Nat}
    (member : (key, exponent) ∈ factorization.entries) : factorization.exponent key = exponent :=
  PrimePower.exponentIn_of_mem factorization.ascending member

theorem mem_entries_iff {factorization : Factorization} {key exponent : Nat} :
    (key, exponent) ∈ factorization.entries ↔
      key ∈ factorization.primes ∧ factorization.exponent key = exponent := by
  constructor
  · intro member
    exact ⟨List.mem_map_of_mem member, exponent_of_mem member⟩
  · rintro ⟨present, rfl⟩
    obtain ⟨⟨same, exponent⟩, member, rfl⟩ := List.mem_map.mp present
    rwa [exponent_of_mem member]

theorem exponent_eq_zero {factorization : Factorization} {q : Nat}
    (absent : q ∉ factorization.primes) : factorization.exponent q = 0 := by
  refine PrimePower.exponentIn_eq_zero ?_
  rintro entry member rfl
  exact absent (List.mem_map_of_mem member)

theorem Positive.mem_primes_iff {factorization : Factorization} (positive : factorization.Positive)
    (q : Nat) : q ∈ factorization.primes ↔ 0 < factorization.exponent q := by
  constructor
  · intro present
    exact positive _ (mem_entries_iff.mpr ⟨present, rfl⟩)
  · intro raised
    by_contra absent
    exact Nat.ne_of_gt raised (exponent_eq_zero absent)

theorem addPower_spec (factorization : Factorization) {prime power : Nat}
    (room : factorization.exponent prime + power < Word.short) :
    ∃ grown, factorization.addPower prime power = .ok grown ∧
      (∀ q, grown.exponent q = factorization.exponent q + if q = prime then power else 0) ∧
      (0 < power → factorization.Positive → grown.Positive) := by
  obtain ⟨entries, inserted, exponents, kept⟩ :=
    PrimePower.insert_spec factorization.ascending room
  refine ⟨⟨entries, PrimePower.insert_ascending factorization.ascending inserted⟩, ?_,
    exponents, kept⟩
  rw [addPower]
  split
  · rename_i result success
    rw [inserted] at success
    cases success
    rfl
  · rename_i halt failure
    rw [inserted] at failure
    cases failure

/-- The factorization has exactly the prime powers of `n`. -/
structure Of (factorization : Factorization) (n : Nat) : Prop where
  exponent_eq : ∀ q, factorization.exponent q = n.factorization q
  positive : factorization.Positive

namespace Of

variable {factorization : Factorization} {n : Nat}

theorem mem_entries_iff (complete : factorization.Of n) (q exponent : Nat) :
    (q, exponent) ∈ factorization.entries ↔ 0 < exponent ∧ n.factorization q = exponent := by
  rw [Factorization.mem_entries_iff, complete.positive.mem_primes_iff, ← complete.exponent_eq]
  exact and_congr_left fun same => by rw [same]

theorem prime_of_mem (complete : factorization.Of n) {q exponent : Nat}
    (member : (q, exponent) ∈ factorization.entries) : q.Prime := by
  obtain ⟨positive, rfl⟩ := (complete.mem_entries_iff q exponent).mp member
  by_contra composite
  exact Nat.ne_of_gt positive (Nat.factorization_eq_zero_of_not_prime n composite)

end Of

end Factorization

/-! ## Trial division -/

namespace TrialDivision

/-- What was found and what remains make up `n`. -/
structure Balanced (n remaining : Nat) (found : Factorization) : Prop where
  nonzero : remaining ≠ 0
  exponent_add : ∀ q, found.exponent q + remaining.factorization q = n.factorization q
  positive : found.Positive

theorem factorization_lt_short {n : Nat} (nonzero : n ≠ 0) (fits : n < Word.long) (q : Nat) :
    n.factorization q < Word.short := by
  by_cases prime : q.Prime
  · have power : 2 ^ n.factorization q ≤ n :=
      Nat.le_trans (Nat.pow_le_pow_left prime.two_le _) (Nat.ordProj_le q nonzero)
    have small : 2 ^ n.factorization q < 2 ^ 64 := Nat.lt_of_le_of_lt power fits
    have bound : n.factorization q < 64 := (Nat.pow_lt_pow_iff_right (by decide)).mp small
    exact Nat.lt_trans bound (by decide)
  · rw [Nat.factorization_eq_zero_of_not_prime n prime]
    decide

theorem factorization_prime_mul {p k : Nat} (prime : p.Prime) (nonzero : k ≠ 0) (q : Nat) :
    (p * k).factorization q = (if q = p then 1 else 0) + k.factorization q := by
  rw [Nat.factorization_mul prime.ne_zero nonzero, prime.factorization, Finsupp.add_apply,
    Finsupp.single_apply]
  by_cases same : q = p
  · simp [same]
  · simp [same, Ne.symm same]

theorem Balanced.add {n p k : Nat} {found : Factorization} (nonzero : n ≠ 0)
    (fits : n < Word.long) (prime : p.Prime) (balanced : Balanced n (p * k) found) :
    ∃ grown, found.add p = .ok grown ∧ Balanced n k grown := by
  have left : k ≠ 0 := fun zero => balanced.nonzero (by rw [zero, Nat.mul_zero])
  have whole := balanced.exponent_add p
  rw [factorization_prime_mul prime left, if_pos rfl] at whole
  have bound := factorization_lt_short nonzero fits p
  obtain ⟨grown, added, exponents, positive⟩ :=
    found.addPower_spec (show found.exponent p + 1 < Word.short by omega)
  refine ⟨grown, added, left, ?_, positive Nat.one_pos balanced.positive⟩
  intro q
  have before := balanced.exponent_add q
  rw [factorization_prime_mul prime left] at before
  rw [exponents]
  omega

theorem divideOut_spec {n divisor remaining : Nat} {found : Factorization} (nonzero : n ≠ 0)
    (fits : n < Word.long) (proper : 1 < divisor) (prime : divisor ∣ remaining → divisor.Prime)
    (balanced : Balanced n remaining found) :
    ∃ rest grown, divideOut divisor remaining found = .ok (rest, grown) ∧
      Balanced n rest grown ∧ rest ∣ remaining ∧ ¬ divisor ∣ rest := by
  induction remaining using Nat.strong_induction_on generalizing found with
  | _ remaining ih =>
      have left := balanced.nonzero
      rw [divideOut]
      by_cases divides : remaining % divisor = 0
      · obtain ⟨quotient, rfl⟩ := Nat.dvd_of_mod_eq_zero divides
        have isPrime := prime (Nat.dvd_mul_right ..)
        obtain ⟨grown, added, later⟩ := balanced.add nonzero fits isPrime
        have smaller : quotient < divisor * quotient :=
          lt_mul_of_one_lt_left (Nat.pos_of_ne_zero later.nonzero) proper
        obtain ⟨rest, final, run, ending, divided, free⟩ :=
          ih quotient smaller (fun _ => isPrime) later
        refine ⟨rest, final, ?_, ending, divided.trans (Nat.dvd_mul_left ..), free⟩
        rw [dif_pos ⟨proper, Nat.pos_of_ne_zero left, divides⟩, added, Outcome.ok_bind,
          Nat.mul_div_cancel_left _ (by omega), run]
      · refine ⟨remaining, found, ?_, balanced, dvd_rfl, ?_⟩
        · rw [dif_neg fun all => divides all.2.2]
        · exact fun also => divides (Nat.mod_eq_zero_of_dvd also)

theorem Rough.prime_of_dvd {divisor remaining : Nat} (proper : 1 < divisor)
    (rough : Rough divisor remaining) (divides : divisor ∣ remaining) : divisor.Prime := by
  have least := rough divisor.minFac (Nat.minFac_prime (by omega))
    ((Nat.minFac_dvd divisor).trans divides)
  have whole : divisor.minFac = divisor := Nat.le_antisymm (Nat.minFac_le (by omega)) least
  rw [← whole]
  exact Nat.minFac_prime (by omega)

theorem Rough.next_odd {divisor remaining rest : Nat} (odd : divisor % 2 = 1) (three : 3 ≤ divisor)
    (rough : Rough divisor remaining) (divided : rest ∣ remaining) (free : ¬ divisor ∣ rest) :
    Rough (divisor + 2) rest := by
  intro q prime divides
  have reached := rough q prime (divides.trans divided)
  have other : q ≠ divisor := by
    rintro rfl
    exact free divides
  rcases prime.eq_two_or_odd with two | isOdd
  · omega
  · omega

theorem search_spec {n divisor remaining : Nat} {found : Factorization} (nonzero : n ≠ 0)
    (fits : n < Word.long) (inside : divisor < Word.long) (within : remaining < Word.long)
    (odd : divisor % 2 = 1) (three : 3 ≤ divisor) (rough : Rough divisor remaining)
    (balanced : Balanced n remaining found) :
    ∃ rest grown, search divisor remaining found = .ok (rest, grown) ∧
      Balanced n rest grown ∧ (rest = 1 ∨ rest.Prime) := by
  -- The remaining number shrinks or stays while the divisor grows.
  induction size : remaining + 1 - divisor using Nat.strong_induction_on
    generalizing divisor remaining found with
  | _ measure ih =>
      rw [search, Word.fit_of_lt (Word.mul_lt_wide inside inside)]
      dsimp only
      by_cases small : divisor * divisor ≤ remaining
      · obtain ⟨rest, grown, run, later, divided, free⟩ :=
          divideOut_spec nonzero fits (by omega) (rough.prime_of_dvd (by omega)) balanced
        have shrunk : rest ≤ remaining :=
          Nat.le_of_dvd (Nat.pos_of_ne_zero balanced.nonzero) divided
        have tripled : 3 * divisor ≤ divisor * divisor := Nat.mul_le_mul_right _ three
        have room : divisor + 2 < Word.long := by omega
        obtain ⟨last, final, finished, ending, shape⟩ :=
          ih (rest + 1 - (divisor + 2)) (by omega) room (by omega) (by omega) (by omega)
            (rough.next_odd odd three divided free) later rfl
        refine ⟨last, final, ?_, ending, shape⟩
        rw [dif_pos small]
        split
        · rename_i halt failure
          rw [run] at failure
          cases failure
        · rename_i pair success
          rw [run] at success
          cases success
          simp [Word.fit_of_lt room, finished]
      · refine ⟨remaining, found, ?_, balanced, ?_⟩
        · rw [dif_neg small]
        · have left := balanced.nonzero
          by_cases one : remaining = 1
          · exact Or.inl one
          · exact Or.inr (prime_of_rough (by omega) rough (by omega))

theorem empty_balanced {n : Nat} (nonzero : n ≠ 0) : Balanced n n Factorization.empty where
  nonzero := nonzero
  exponent_add q := by
    have none : Factorization.empty.exponent q = 0 := rfl
    omega
  positive := by simp [Factorization.Positive, Factorization.empty]

theorem factor_spec {n : Nat} (fits : n < Word.long) :
    ∃ factorization, factor n = .ok factorization ∧ factorization.Of n := by
  unfold factor
  by_cases trivial : n ≤ 1
  · refine ⟨Factorization.empty, by rw [if_pos trivial], ?_, ?_⟩
    · intro q
      have none : Factorization.empty.exponent q = 0 := rfl
      rcases Nat.le_one_iff_eq_zero_or_eq_one.mp trivial with rfl | rfl
      · simp [none]
      · simp [none]
    · simp [Factorization.Positive, Factorization.empty]
  · have nonzero : n ≠ 0 := by omega
    obtain ⟨odd, twos, halved, balanced, divided, free⟩ :=
      divideOut_spec nonzero fits (by decide) (fun _ => Nat.prime_two) (empty_balanced nonzero)
    have within : odd < Word.long :=
      Nat.lt_of_le_of_lt (Nat.le_of_dvd (Nat.pos_of_ne_zero nonzero) divided) fits
    have rough : Rough 3 odd := by
      intro q prime divides
      have two := prime.two_le
      have other : q ≠ 2 := by
        rintro rfl
        exact free divides
      omega
    obtain ⟨rest, found, searched, ending, shape⟩ :=
      search_spec nonzero fits (by decide) within rfl (Nat.le_refl 3) rough balanced
    simp only [if_neg trivial, halved, searched, Outcome.ok_bind]
    by_cases one : rest = 1
    · subst one
      refine ⟨found, rfl, fun q => ?_, ending.positive⟩
      have total := ending.exponent_add q
      rwa [Nat.factorization_one, Finsupp.coe_zero, Pi.zero_apply, Nat.add_zero] at total
    · have prime := shape.resolve_left one
      obtain ⟨whole, added, last⟩ :=
        Balanced.add (k := 1) nonzero fits prime (by simpa using ending)
      refine ⟨whole, by rw [if_pos prime.one_lt, added], fun q => ?_, last.positive⟩
      have total := last.exponent_add q
      rwa [Nat.factorization_one, Finsupp.coe_zero, Pi.zero_apply, Nat.add_zero] at total

end TrialDivision

end ResidueAlgebra
