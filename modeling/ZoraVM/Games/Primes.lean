import Mathlib.Data.Nat.Factors
import ZoraVM.Foundation.CInt
import ZoraVM.Foundation.Shifts
import ZoraVM.Foundation.Sieve
import ZoraVM.Network.Numerals

namespace ZoraVM.Games

open Foundation

section Source

inductive Printed where
  | text (text : String)
  | number (width : Nat) (n : Nat)
  deriving DecidableEq, Repr

-- for (int j = i * i; j <= limit; j += i) is_prime[j] = 0
def strikeOut (limit i : Nat) : Nat → Nat → List Bool → Checked (Option (List Bool))
  | 0, _, _ => .ok none
  | fuel + 1, j, isPrime =>
    if j ≤ limit then do
      let isPrime ← Checked.of (store isPrime j false)
      let j ← checkedNat (j + i)
      strikeOut limit i fuel j isPrime
    else .ok (some isPrime)

def sieveOfEratosthenes (limit fuel : Nat) : Nat → Nat → List Bool → Checked (Option (List Bool))
  | 0, _, _ => .ok none
  | rounds + 1, i, isPrime => do
    let square ← checkedNat (i * i)
    if square ≤ limit then do
      let struck ← if ← Checked.of (load isPrime i) then do
          let j ← checkedNat (i * i)
          strikeOut limit i fuel j isPrime
        else .ok (some isPrime)
      match struck with
      | none => .ok none
      | some isPrime => do
        let i ← checkedNat (i + 1)
        sieveOfEratosthenes limit fuel rounds i isPrime
    else .ok (some isPrime)

def printPrimes (limit : Nat) (isPrime : List Bool) :
    Nat → Nat → Nat → Checked (Option (List Printed × Nat))
  | 0, _, _ => .ok none
  | fuel + 1, i, count =>
    if i ≤ limit then do
      if ← Checked.of (load isPrime i) then do
        let count ← checkedNat (count + 1)
        let printed := .number 4 i :: if count % 10 = 0 then [.text "\n"] else []
        let i ← checkedNat (i + 1)
        Option.map (fun rest => (printed ++ rest.1, rest.2)) <$> printPrimes limit isPrime fuel i count
      else do
        let i ← checkedNat (i + 1)
        printPrimes limit isPrime fuel i count
    else .ok (some ([], count))

def primesHeading (limit : Nat) : List Printed :=
  [.text "ZoraVM Primes v1.0\n", .text "Prime numbers up to ", .number 0 limit, .text ":\n\n"]

def primesTotal (count : Nat) : List Printed :=
  (if count % 10 ≠ 0 then [.text "\n"] else []) ++
    [.text "\nTotal primes found: ", .number 0 count, .text "\n"]

def primesReport (limit : Nat) (found : List Printed × Nat) : List Printed × Int :=
  (primesHeading limit ++ found.1 ++ primesTotal found.2, 0)

-- What is printed and what is returned; allocated: whether malloc has a block.
def unixGeneratePrimes (fuel limit : Nat) (allocated : Bool) :
    Checked (Option (List Printed × Int)) :=
  if limit < 2 then .ok (some (primesHeading limit ++ [.text "No primes less than 2\n"], 0))
  else do
    let size ← checkedNat (limit + 1)
    if allocated then do
      let isPrime := List.replicate size true
      let isPrime ← Checked.of (store isPrime 1 false)
      let isPrime ← Checked.of (store isPrime 0 false)
      match ← sieveOfEratosthenes limit fuel fuel 2 isPrime with
      | none => .ok none
      | some isPrime =>
        Option.map (primesReport limit) <$> printPrimes limit isPrime fuel 2 0
    else .ok (some (primesHeading limit ++ [.text "Memory allocation failed\n"], 1))

end Source

section Specification

def primesUpTo (limit : Nat) : List Nat := (List.range (limit + 1)).filter Nat.Prime

def primeRows : Nat → List Nat → List Printed
  | _, [] => []
  | count, p :: primes =>
    .number 4 p :: (if (count + 1) % 10 = 0 then [.text "\n"] else []) ++ primeRows (count + 1) primes

end Specification

section StrikingOut

variable {limit i j k : Nat} {isPrime isPrime' : List Bool}

theorem load_checked (h : k < isPrime.length) :
    ∃ marked, isPrime[k]? = some marked ∧ Checked.of (load isPrime k) = .ok marked := by
  refine ⟨isPrime[k], List.getElem?_eq_getElem h, ?_⟩
  rw [load, List.getElem?_eq_getElem h]
  rfl

theorem store_checked (h : k < isPrime.length) (marked : Bool) :
    Checked.of (store isPrime k marked) = .ok (isPrime.set k marked) := by
  rw [store, if_pos h]
  rfl

theorem strikeOut_eq (hi : 0 < i) (hroom : limit + i ≤ 2147483647)
    (hlength : isPrime.length = limit + 1) {fuel : Nat} (hpos : 0 < fuel)
    (hfuel : limit + 1 < j + fuel) :
    ∃ struck, strikeOut limit i fuel j isPrime = .ok (some struck) ∧ struck.length = limit + 1 ∧
      ∀ k, struck[k]? = some true ↔
        isPrime[k]? = some true ∧ ¬ (j ≤ k ∧ k ≤ limit ∧ i ∣ k - j) := by
  induction fuel generalizing j isPrime with
  | zero => exact absurd hpos (Nat.lt_irrefl 0)
  | succ fuel ih =>
    rw [strikeOut]
    by_cases hj : j ≤ limit
    · have hlt : j < isPrime.length := by omega
      obtain ⟨struck, hrun, hstruck, hleft⟩ := @ih (j + i) (isPrime.set j false)
        (by rw [List.length_set, hlength]) (by omega) (by omega)
      refine ⟨struck, ?_, hstruck, fun k => ?_⟩
      · rw [if_pos hj, store_checked hlt]
        simp only [bind, Except.bind, checkedNat_ok (show j + i ≤ 2147483647 by omega)]
        exact hrun
      · rw [hleft, List.getElem?_set]
        by_cases hk : j = k
        · subst hk
          simp [hlt, hj]
        · rw [if_neg hk]
          refine and_congr_right fun _ => not_congr ⟨fun h => ?_, fun h => ?_⟩
          · refine ⟨by omega, h.2.1, ?_⟩
            have hsum : k - j = k - (j + i) + i := by omega
            exact hsum ▸ Nat.dvd_add_self_right.mpr h.2.2
          · have hle := Nat.le_of_dvd (by omega) h.2.2
            refine ⟨by omega, h.2.1, ?_⟩
            rw [Nat.sub_add_eq]
            exact Nat.dvd_sub h.2.2 (dvd_refl i)
    · refine ⟨isPrime, if_neg hj, hlength, fun k => ?_⟩
      refine ⟨fun h => ⟨h, fun hk => hj (hk.1.trans hk.2.1)⟩, And.left⟩

end StrikingOut

section Sieving

variable {limit i k fuel rounds : Nat} {isPrime : List Bool}

structure Swept (limit i : Nat) (isPrime : List Bool) : Prop where
  length : isPrime.length = limit + 1
  left : ∀ k ≤ limit, isPrime[k]? = some true ↔ Sifted i k

theorem square_le (h : i ≤ 46340) : i * i ≤ 2147395600 := Nat.mul_le_mul h h

theorem lt_of_square_lt (h : i * i < 2147395600) : i < 46340 := by
  by_contra hge
  have hle := Nat.mul_le_mul (Nat.le_of_not_lt hge) (Nat.le_of_not_lt hge)
  omega

theorem Swept.struck (h : Swept limit i isPrime) (hi : i.Prime) (hroom : limit + i ≤ 2147483647)
    (hfuel : limit + 1 < fuel) : ∃ struck, strikeOut limit i fuel (i * i) isPrime = .ok (some struck) ∧
      Swept limit (i + 1) struck := by
  obtain ⟨struck, hrun, hlength, hleft⟩ := @strikeOut_eq limit i (i * i) isPrime hi.pos hroom h.length
    fuel (by omega) (by omega)
  refine ⟨struck, hrun, hlength, fun k hk => ?_⟩
  rw [hleft, h.left k hk, sifted_succ_of_prime hi]
  refine and_congr_right fun _ => not_congr ⟨fun hs => ⟨hs.1, ?_⟩, fun hs => ⟨hs.1, hk, ?_⟩⟩
  · exact (Nat.dvd_sub_iff_left hs.1 (Nat.dvd_mul_left i i)).mp hs.2.2
  · exact (Nat.dvd_sub_iff_left hs.1 (Nat.dvd_mul_left i i)).mpr hs.2

theorem Swept.sieve (h : Swept limit i isPrime) (h₂ : 2 ≤ i) (hi : i ≤ 46340)
    (hlimit : limit < 2147395600) (hfuel : limit + 1 < fuel) (hpos : 0 < rounds)
    (hrounds : limit + 1 < i + rounds) :
    ∃ sieved, sieveOfEratosthenes limit fuel rounds i isPrime = .ok (some sieved) ∧
      sieved.length = limit + 1 ∧ ∀ k ≤ limit, sieved[k]? = some true ↔ k.Prime := by
  induction rounds generalizing i isPrime with
  | zero => exact absurd hpos (Nat.lt_irrefl 0)
  | succ rounds ih =>
    have hsquare := square_le hi
    rw [sieveOfEratosthenes, checkedNat_ok (by omega)]
    by_cases hle : i * i ≤ limit
    · have hlt := lt_of_square_lt (Nat.lt_of_le_of_lt hle hlimit)
      have hself : i ≤ limit := (Nat.le_mul_self i).trans hle
      have hnext : checkedNat (i + 1) = .ok (i + 1) := checkedNat_ok (by omega)
      obtain ⟨marked, hmarked, hload⟩ := load_checked (k := i) (by
        rw [h.length]
        omega)
      have hprime : marked = true ↔ i.Prime := by
        rw [← sifted_self h₂, ← h.left i hself, hmarked, Option.some.injEq]
      simp only [bind, Except.bind, hle, if_true, hload]
      cases marked with
      | true =>
        obtain ⟨struck, hrun, hswept⟩ := h.struck (hprime.mp rfl) (by omega) hfuel
        simp only [if_true, hrun, hnext]
        exact ih hswept (by omega) (by omega) (by omega) (by omega)
      | false =>
        have hnot : ¬ i.Prime := fun hp => Bool.false_ne_true (hprime.mpr hp)
        have hswept : Swept limit (i + 1) isPrime :=
          ⟨h.length, fun k hk => (h.left k hk).trans (sifted_succ_of_not_prime hnot).symm⟩
        simp only [Bool.false_eq_true, if_false, hnext]
        exact ih hswept (by omega) (by omega) (by omega) (by omega)
    · refine ⟨isPrime, ?_, h.length, fun k hk => ?_⟩
      · simp only [bind, Except.bind, hle, if_false]
      · rw [h.left k hk, sifted_iff_prime (by omega)]

theorem swept_start (h₂ : 2 ≤ limit) :
    Swept limit 2 (((List.replicate (limit + 1) true).set 1 false).set 0 false) := by
  refine ⟨by simp, fun k hk => ?_⟩
  rw [sifted_two]
  match k with
  | 0 => simp
  | 1 =>
    have hlt : 1 < limit + 1 := by omega
    simp [hlt]
  | k + 2 =>
    have hlt : k + 2 < limit + 1 := by omega
    simp [hlt]

theorem strikeOut_total (hi : 0 < i) (hlength : isPrime.length = limit + 1) {j : Nat}
    (hpos : 0 < fuel) (hfuel : limit + 1 < j + fuel) :
    (∃ struck, strikeOut limit i fuel j isPrime = .ok (some struck) ∧ struck.length = limit + 1) ∨
      strikeOut limit i fuel j isPrime = .error .intOverflow := by
  induction fuel generalizing j isPrime with
  | zero => exact absurd hpos (Nat.lt_irrefl 0)
  | succ fuel ih =>
    rw [strikeOut]
    by_cases hj : j ≤ limit
    · have hlt : j < isPrime.length := by omega
      rw [if_pos hj, store_checked hlt]
      by_cases hroom : j + i ≤ 2147483647
      · simp only [bind, Except.bind, checkedNat_ok hroom]
        exact ih (by rw [List.length_set, hlength]) (by omega) (by omega)
      · rw [checkedNat_overflow (Nat.not_le.mp hroom)]
        exact .inr rfl
    · exact .inl ⟨isPrime, if_neg hj, hlength⟩

-- The square of 46341 is beyond the range of int, and that of 46340 is not beyond the limit.
theorem sieve_overflows (hlimit : 2147395600 ≤ limit) (h₂ : 2 ≤ i) (hi : i ≤ 46341)
    (hlength : isPrime.length = limit + 1) (hfuel : limit + 1 < fuel) (hrounds : 46341 < i + rounds) :
    sieveOfEratosthenes limit fuel rounds i isPrime = .error .intOverflow := by
  induction rounds generalizing i isPrime with
  | zero => omega
  | succ rounds ih =>
    rw [sieveOfEratosthenes]
    rcases Nat.lt_or_eq_of_le hi with hlt | rfl
    · have hsquare := square_le (Nat.le_of_lt_succ hlt)
      have hnext : checkedNat (i + 1) = .ok (i + 1) := checkedNat_ok (by omega)
      have hj : checkedNat (i * i) = .ok (i * i) := checkedNat_ok (by omega)
      obtain ⟨marked, -, hload⟩ := @load_checked i isPrime (by omega)
      have hle : i * i ≤ limit := hsquare.trans hlimit
      simp only [hj, bind, Except.bind, hle, if_true, hload]
      cases marked with
      | true =>
        obtain ⟨struck, hrun, hstruck⟩ | hrun := @strikeOut_total limit i fuel isPrime (by omega) hlength
          (i * i) (by omega) (by omega)
        · simp only [if_true, hrun, hnext]
          exact ih (by omega) (by omega) hstruck (by omega)
        · simp only [if_true, hrun]
      | false =>
        simp only [Bool.false_eq_true, if_false, hnext]
        exact ih (by omega) (by omega) hlength (by omega)
    · rw [checkedNat_overflow (by omega)]
      rfl

end Sieving

section Printing

variable {limit i count fuel : Nat} {isPrime : List Bool}

def primesFrom (limit i : Nat) : List Nat := (List.range' i (limit + 1 - i)).filter Nat.Prime

theorem primesFrom_of_lt (h : limit < i) : primesFrom limit i = [] := by
  have hzero : limit + 1 - i = 0 := by omega
  rw [primesFrom, hzero]
  rfl

theorem primesFrom_of_le (h : i ≤ limit) : primesFrom limit i =
    if i.Prime then i :: primesFrom limit (i + 1) else primesFrom limit (i + 1) := by
  have hsucc : limit + 1 - i = limit + 1 - (i + 1) + 1 := by omega
  rw [primesFrom, hsucc, List.range'_succ, List.filter_cons]
  simp only [decide_eq_true_eq, primesFrom]

theorem primesFrom_two (h₂ : 2 ≤ limit) : primesFrom limit 2 = primesUpTo limit := by
  have hzero : primesFrom limit 0 = primesFrom limit 1 := by
    rw [primesFrom_of_le (Nat.zero_le limit), if_neg Nat.not_prime_zero]
  have hone : primesFrom limit 1 = primesFrom limit 2 := by
    rw [primesFrom_of_le (by omega), if_neg Nat.not_prime_one]
  rw [← hone, ← hzero, primesUpTo, List.range_eq_range']
  rfl

theorem printPrimes_eq (hlength : isPrime.length = limit + 1)
    (hprime : ∀ k ≤ limit, isPrime[k]? = some true ↔ k.Prime) (hlimit : limit < 2147483647)
    (hcount : count ≤ i) (hpos : 0 < fuel) (hfuel : limit + 1 < i + fuel) :
    printPrimes limit isPrime fuel i count =
      .ok (some (primeRows count (primesFrom limit i), count + (primesFrom limit i).length)) := by
  induction fuel generalizing i count with
  | zero => exact absurd hpos (Nat.lt_irrefl 0)
  | succ fuel ih =>
    rw [printPrimes]
    by_cases hi : i ≤ limit
    · have hnext : checkedNat (i + 1) = .ok (i + 1) := checkedNat_ok (by omega)
      have hcounted : checkedNat (count + 1) = .ok (count + 1) := checkedNat_ok (by omega)
      obtain ⟨marked, hmarked, hload⟩ := @load_checked i isPrime (by omega)
      have hmark := hprime i hi
      rw [hmarked, Option.some.injEq] at hmark
      rw [if_pos hi, primesFrom_of_le hi]
      simp only [hload, bind, Except.bind]
      cases marked with
      | true =>
        rw [if_pos rfl, if_pos (hmark.mp rfl)]
        simp only [hcounted, hnext, ih (Nat.succ_le_succ hcount) (by omega) (by omega), primeRows,
          List.length_cons]
        have hlen : count + 1 + (primesFrom limit (i + 1)).length =
            count + ((primesFrom limit (i + 1)).length + 1) := by omega
        rw [hlen]
        rfl
      | false =>
        rw [if_neg Bool.false_ne_true, if_neg fun hp => Bool.false_ne_true (hmark.mpr hp)]
        simp only [hnext]
        exact ih (by omega) (by omega) (by omega)
    · rw [if_neg hi, primesFrom_of_lt (Nat.not_le.mp hi)]
      rfl

end Printing

section Generating

variable {limit fuel : Nat}

def primesPrinted (limit : Nat) : List Printed :=
  primesHeading limit ++ primeRows 0 (primesUpTo limit) ++ primesTotal (primesUpTo limit).length

theorem unixGeneratePrimes_eq (h₂ : 2 ≤ limit) (hint : limit < 2147483647) (fuel : Nat) :
    unixGeneratePrimes fuel limit true =
      (sieveOfEratosthenes limit fuel fuel 2
        (((List.replicate (limit + 1) true).set 1 false).set 0 false) >>= fun sieved =>
          match sieved with
          | none => .ok none
          | some isPrime =>
            Option.map (primesReport limit) <$> printPrimes limit isPrime fuel 2 0) := by
  have hone : 1 < (List.replicate (limit + 1) true).length := by
    rw [List.length_replicate]
    omega
  have hzero : 0 < ((List.replicate (limit + 1) true).set 1 false).length := by simp
  rw [unixGeneratePrimes, if_neg (by omega), checkedNat_ok (by omega)]
  simp only [bind, Except.bind, if_true, store_checked hone, store_checked hzero]

theorem generates_overflow (hlimit : 2147395600 ≤ limit) (hfuel : limit + 1 < fuel) :
    unixGeneratePrimes fuel limit true = .error .intOverflow := by
  by_cases hint : limit < 2147483647
  · rw [unixGeneratePrimes_eq (by omega) hint,
      sieve_overflows hlimit (Nat.le_refl 2) (by omega) (by simp) hfuel (by omega)]
    rfl
  · rw [unixGeneratePrimes, if_neg (by omega), checkedNat_overflow (by omega)]
    rfl

theorem generates_primes (h₂ : 2 ≤ limit) (hlimit : limit < 2147395600) (hfuel : limit + 1 < fuel) :
    unixGeneratePrimes fuel limit true = .ok (some (primesPrinted limit, 0)) := by
  obtain ⟨sieved, hrun, hlength, hprime⟩ := (swept_start h₂).sieve (Nat.le_refl 2) (by omega) hlimit hfuel
    (show 0 < fuel by omega) (by omega)
  rw [unixGeneratePrimes_eq h₂ (by omega), hrun]
  simp only [bind, Except.bind]
  rw [printPrimes_eq hlength hprime (by omega) (Nat.zero_le 2) (by omega) (by omega), primesFrom_two h₂,
    Nat.zero_add]
  rfl

theorem generates_primes_iff (h₂ : 2 ≤ limit) (hint : limit ≤ 2147483647) :
    Completes (fun fuel => unixGeneratePrimes fuel limit true) (primesPrinted limit, 0) ↔
      limit < 2147395600 := by
  constructor
  · rintro ⟨enough, hrun⟩
    by_contra hge
    have hok : unixGeneratePrimes (enough + limit + 2) limit true = _ := hrun _ (by omega)
    rw [generates_overflow (Nat.not_lt.mp hge) (by omega)] at hok
    cases hok
  · exact fun hlt => ⟨limit + 2, fun fuel hfuel => generates_primes h₂ hlt (by omega)⟩

theorem generates_primes_thirty : (2 ≤ 30 ∧ 30 ≤ 2147483647) ∧
    Completes (fun fuel => unixGeneratePrimes fuel 30 true) (primesPrinted 30, 0) :=
  ⟨by decide, (generates_primes_iff (by decide) (by decide)).mpr (by decide)⟩

theorem largest_limits_overflow : ∃ enough, ∀ fuel, enough ≤ fuel →
    unixGeneratePrimes fuel 2147395600 true = .error .intOverflow :=
  ⟨2147395602, fun _ hfuel => generates_overflow (Nat.le_refl _) hfuel⟩

end Generating

section Factors

open Network (decimalText intText)

-- " *" in front of every factor but the first.
def factorPiece (first : Bool) (p : Nat) : Bytes :=
  (if first then [] else str " *") ++ (32 :: decimalText p)

-- while (n % i == 0): what it prints, first, and the n that it leaves.
def divideOut (i : Nat) : Nat → Bool → Nat → Option (Bytes × Bool × Nat)
  | 0, _, _ => none
  | fuel + 1, first, n =>
    if n % i = 0 then
      (divideOut i fuel false (n / i)).map fun left => (factorPiece first i ++ left.1, left.2)
    else some ([], first, n)

-- for (int i = 3; i * i <= n; i += 2)
def oddFactors (fuel : Nat) : Nat → Nat → Bool → Nat → Checked (Option (Bytes × Bool × Nat))
  | 0, _, _, _ => .ok none
  | rounds + 1, i, first, n => do
    let square ← checkedNat (i * i)
    if square ≤ n then
      match divideOut i fuel first n with
      | none => .ok none
      | some (printed, first, n) => do
        let i ← checkedNat (i + 2)
        Option.map (fun left => (printed ++ left.1, left.2)) <$> oddFactors fuel rounds i first n
    else .ok (some ([], first, n))

def factorHeading (number : Bytes) : Bytes :=
  str "ZoraVM Factor v1.0\nPrime factorization of " ++ (number ++ str ":\n")

def unixFactorNumber (fuel : Nat) (number : Int) : Checked (Option (Int × Bytes)) :=
  let heading := factorHeading (intText number)
  if number ≤ 1 then .ok (some (1, heading ++ str "Number must be greater than 1\n"))
  else
    match divideOut 2 fuel true number.toNat with
    | none => .ok none
    | some (twos, first, n) => do
      match ← oddFactors fuel fuel 3 first n with
      | none => .ok none
      | some (odds, first, n) =>
        let last := if 1 < n then factorPiece first n else []
        .ok (some (0, heading ++ (intText number ++ (str " =" ++ (twos ++ (odds ++ (last ++ str "\n")))))))

end Factors

section Factoring

open Network (decimalText intText)

variable {i n m k p fuel rounds : Nat} {first : Bool}

def factorText : Bool → List Nat → Bytes
  | _, [] => []
  | first, p :: ps => factorPiece first p ++ factorText false ps

theorem factorText_append (first : Bool) (ps qs : List Nat) :
    factorText first (ps ++ qs) = factorText first ps ++ factorText (first && ps.isEmpty) qs := by
  induction ps generalizing first with
  | nil => simp [factorText]
  | cons p ps ih => simp [factorText, ih]

def NoneBelow (i n : Nat) : Prop := ∀ p, p.Prime → p ∣ n → i ≤ p

theorem factors_divided (hi : 2 ≤ i) (hn : 0 < n) (hnone : NoneBelow i n) (hdvd : i ∣ n) :
    n.primeFactorsList = i :: (n / i).primeFactorsList := by
  have htwo : 2 ≤ n := hi.trans (Nat.le_of_dvd hn hdvd)
  have hleast : n.minFac = i := Nat.le_antisymm (Nat.minFac_le_of_dvd hi hdvd)
    (hnone _ (Nat.minFac_prime (by omega)) (Nat.minFac_dvd n))
  obtain ⟨m, rfl⟩ := Nat.exists_eq_add_of_le' htwo
  rw [Nat.primeFactorsList_add_two, hleast]

theorem divideOut_eq (hi : 2 ≤ i) (hn : 0 < n) (hnone : NoneBelow i n) (hfuel : n < fuel) (first : Bool) :
    ∃ k m, divideOut i fuel first n =
        some (factorText first (List.replicate k i), first && decide (k = 0), m) ∧
      n.primeFactorsList = List.replicate k i ++ m.primeFactorsList ∧ 0 < m ∧
        (k = 0 ∧ m = n ∨ 0 < k ∧ 2 * m ≤ n) ∧ NoneBelow (i + 1) m := by
  induction fuel generalizing n first with
  | zero => omega
  | succ fuel ih =>
    by_cases hdvd : i ∣ n
    · have hless : n / i < n := Nat.div_lt_self hn (by omega)
      have hpos : 0 < n / i := Nat.div_pos (Nat.le_of_dvd hn hdvd) (by omega)
      have hhalf : 2 * (n / i) ≤ n :=
        (Nat.mul_le_mul_right (n / i) hi).trans (Nat.mul_div_cancel' hdvd).le
      have hbelow : NoneBelow i (n / i) := fun p hp hdiv =>
        hnone p hp (hdiv.trans (Nat.div_dvd_of_dvd hdvd))
      obtain ⟨k, m, hrun, hfactors, hm, hleft, habove⟩ := ih hpos hbelow (by omega) false
      refine ⟨k + 1, m, ?_, ?_, hm, .inr ⟨Nat.succ_pos k, by omega⟩, habove⟩
      · rw [divideOut, if_pos (Nat.mod_eq_zero_of_dvd hdvd), hrun]
        simp [factorText, List.replicate_succ]
      · rw [factors_divided hi hn hnone hdvd, hfactors, List.replicate_succ, List.cons_append]
    · have hmod : ¬ n % i = 0 := fun h => hdvd (Nat.dvd_of_mod_eq_zero h)
      refine ⟨0, n, ?_, rfl, hn, .inl ⟨rfl, rfl⟩, fun p hp hdiv => ?_⟩
      · rw [divideOut, if_neg hmod]
        simp [factorText]
      · have hne : i ≠ p := fun heq => hdvd (heq ▸ hdiv)
        have hle := hnone p hp hdiv
        omega

theorem factors_left (hn : 0 < n) (hnone : NoneBelow i n) (hsquare : n < i * i) :
    n.primeFactorsList = if 1 < n then [n] else [] := by
  by_cases hone : 1 < n
  · have hprime : n.Prime := by
      by_contra hnot
      have hsmall := Nat.minFac_sq_le_self hn hnot
      have hle := hnone _ (Nat.minFac_prime (by omega)) (Nat.minFac_dvd n)
      have hmul := Nat.mul_le_mul hle hle
      rw [Nat.pow_two] at hsmall
      omega
    rw [Nat.primeFactorsList_prime hprime, if_pos hone]
  · have hsame : n = 1 := by omega
    rw [hsame, Nat.primeFactorsList_one, if_neg (by omega)]

-- The loop comes to i = 46341, whose square is no int.
def ComesTooFar (n : Nat) : Prop := 46339 * 46339 ≤ n ∧ NoneBelow 46339 n

theorem none_below_odd (hodd : i % 2 = 1) (hthree : 3 ≤ i) (h : NoneBelow (i + 1) n) :
    NoneBelow (i + 2) n := by
  intro p hp hdiv
  have hle := h p hp hdiv
  have hne : p ≠ i + 1 := by
    rintro rfl
    rcases hp.eq_two_or_odd with heq | hpodd <;> omega
  omega

theorem divided_too_far (hn : n ≤ 2147483647)
    (hfactors : n.primeFactorsList = List.replicate k i ++ m.primeFactorsList)
    (hleft : k = 0 ∧ m = n ∨ 0 < k ∧ 2 * m ≤ n) (hi : i < 46339) : ComesTooFar m ↔ ComesTooFar n := by
  rcases hleft with ⟨-, rfl⟩ | ⟨hk, hhalf⟩
  · rfl
  · refine iff_of_false (fun h => ?_) fun h => ?_
    · have hlarge := h.1
      omega
    · have hin : i ∈ n.primeFactorsList := by
        rw [hfactors]
        exact List.mem_append_left _ (List.mem_replicate.mpr ⟨Nat.ne_of_gt hk, rfl⟩)
      have hle := h.2 i (Nat.prime_of_mem_primeFactorsList hin) (Nat.dvd_of_mem_primeFactorsList hin)
      omega

theorem oddFactors_eq (hi : i ≤ 46341) (hodd : i % 2 = 1) (hthree : 3 ≤ i) (hpos : 0 < n)
    (hn : n ≤ 2147483647) (hnone : NoneBelow i n) (hfuel : n < fuel)
    (hrounds : 46343 ≤ i + 2 * rounds) (first : Bool) :
    (i = 46341 ∨ ComesTooFar n → oddFactors fuel rounds i first n = .error .intOverflow) ∧
      (¬ (i = 46341 ∨ ComesTooFar n) → ∃ ps m, oddFactors fuel rounds i first n =
        .ok (some (factorText first ps, first && ps.isEmpty, m)) ∧
          n.primeFactorsList = ps ++ if 1 < m then [m] else []) := by
  induction rounds generalizing i n first with
  | zero => omega
  | succ rounds ih =>
    rw [oddFactors]
    by_cases hend : i = 46341
    · rw [hend, checkedNat_overflow (by decide)]
      exact ⟨fun _ => rfl, fun hnot => absurd (.inl rfl) hnot⟩
    · have hlow : i ≤ 46339 := by omega
      have hsquare : i * i ≤ 46339 * 46339 := Nat.mul_le_mul hlow hlow
      rw [checkedNat_ok (by omega)]
      simp only [bind, Except.bind]
      by_cases hgoes : i * i ≤ n
      · obtain ⟨k, m, hrun, hfactors, hm, hleft, habove⟩ :=
          divideOut_eq (by omega) hpos hnone hfuel first
        have hmn : m ≤ n := by omega
        have hsame : i + 2 = 46341 ∨ ComesTooFar m ↔ ComesTooFar n := by
          by_cases hlast : i = 46339
          · subst hlast
            exact iff_of_true (.inl rfl) ⟨hgoes, hnone⟩
          · rw [divided_too_far hn hfactors hleft (by omega)]
            exact or_iff_right (by omega)
        obtain ⟨hfar, hnear⟩ := ih (by omega) (by omega) (by omega) hm (by omega)
          (none_below_odd hodd hthree habove) (by omega) (by omega) (first && decide (k = 0))
        rw [if_pos hgoes, hrun]
        simp only
        rw [checkedNat_ok (by omega)]
        simp only
        constructor
        · intro h
          rw [hfar (hsame.mpr (h.resolve_left hend))]
          rfl
        · intro h
          obtain ⟨ps, left, hodds, hrest⟩ := hnear fun h' => h (.inr (hsame.mp h'))
          refine ⟨List.replicate k i ++ ps, left, ?_, ?_⟩
          · have hempty : (first && decide (k = 0) && ps.isEmpty) =
                (first && (List.replicate k i ++ ps).isEmpty) := by
              cases k <;> simp
            have hflag : (List.replicate k i).isEmpty = decide (k = 0) := by cases k <;> simp
            rw [hodds, factorText_append, hflag, ← hempty]
            rfl
          · rw [hfactors, hrest, List.append_assoc]
      · have hnear : ¬ (i = 46341 ∨ ComesTooFar n) := fun h =>
          hgoes (hsquare.trans (h.resolve_left hend).1)
        rw [if_neg hgoes]
        refine ⟨fun h => absurd h hnear, fun _ => ⟨[], n, ?_, ?_⟩⟩
        · simp [factorText]
        · exact factors_left hpos hnone (Nat.not_le.mp hgoes)

def factorsPrinted (n : Nat) : Bytes :=
  factorHeading (decimalText n) ++
    (decimalText n ++ (str " =" ++ (factorText true n.primeFactorsList ++ str "\n")))

theorem unixFactorNumber_eq (hone : 1 < n) (hn : n ≤ 2147483647) (hfuel : n + 23172 ≤ fuel) :
    (ComesTooFar n → unixFactorNumber fuel n = .error .intOverflow) ∧
      (¬ ComesTooFar n → unixFactorNumber fuel n = .ok (some (0, factorsPrinted n))) := by
  have hdigits : intText n = decimalText n := by
    rw [intText, if_neg (by omega), Int.toNat_natCast]
  have hnone : NoneBelow 2 n := fun p hp _ => hp.two_le
  have hstart : ¬ (n : Int) ≤ 1 := by omega
  obtain ⟨k, m, hrun, hfactors, hm, hleft, habove⟩ :=
    divideOut_eq (Nat.le_refl 2) (by omega) hnone (show n < fuel by omega) true
  obtain ⟨hfar, hnear⟩ := oddFactors_eq (by omega) rfl (Nat.le_refl 3) hm (by omega) habove
    (show m < fuel by omega) (show 46343 ≤ 3 + 2 * fuel by omega) (true && decide (k = 0))
  have hsame : 3 = 46341 ∨ ComesTooFar m ↔ ComesTooFar n := by
    rw [divided_too_far hn hfactors hleft (by omega)]
    exact or_iff_right (by omega)
  rw [unixFactorNumber, if_neg hstart, Int.toNat_natCast, hrun]
  simp only
  constructor
  · intro h
    rw [hfar (hsame.mpr h)]
    rfl
  · intro h
    obtain ⟨ps, left, hodds, hrest⟩ := hnear fun h' => h (hsame.mp h')
    have hflag : (List.replicate k 2).isEmpty = decide (k = 0) := by cases k <;> simp
    have hlast : (if 1 < left then factorPiece (true && decide (k = 0) && ps.isEmpty) left else []) =
        factorText (true && decide (k = 0) && ps.isEmpty) (if 1 < left then [left] else []) := by
      split
      · simp [factorText]
      · rfl
    have htext : factorText true n.primeFactorsList = factorText true (List.replicate k 2) ++
        (factorText (true && decide (k = 0)) ps ++
          factorText (true && decide (k = 0) && ps.isEmpty) (if 1 < left then [left] else [])) := by
      rw [hfactors, hrest, factorText_append, factorText_append, hflag]
    rw [hodds]
    simp only [bind, Except.bind]
    rw [hlast, hdigits, factorsPrinted, htext]
    simp only [List.append_assoc]

theorem factors_printed_iff (hone : 1 < n) (hn : n ≤ 2147483647) :
    (Completes (fun fuel => unixFactorNumber fuel n) (0, factorsPrinted n) ↔
      n < 2147302921 ∨ n.minFac < 46339) ∧
    (¬ (n < 2147302921 ∨ n.minFac < 46339) →
      ∃ enough, ∀ fuel, enough ≤ fuel → unixFactorNumber fuel n = .error .intOverflow) := by
  have hleast : NoneBelow 46339 n ↔ 46339 ≤ n.minFac :=
    ⟨fun h => h _ (Nat.minFac_prime (by omega)) (Nat.minFac_dvd n),
      fun h p hp hdiv => h.trans (Nat.minFac_le_of_dvd hp.two_le hdiv)⟩
  have hfar : ComesTooFar n ↔ ¬ (n < 2147302921 ∨ n.minFac < 46339) := by
    rw [ComesTooFar, hleast, not_or]
    omega
  refine ⟨⟨?_, fun h => ?_⟩, fun hnot => ?_⟩
  · rintro ⟨enough, hrun⟩
    by_contra hnot
    have hok : unixFactorNumber (enough + n + 23172) n = _ := hrun _ (by omega)
    rw [(unixFactorNumber_eq hone hn (by omega)).1 (hfar.mpr hnot)] at hok
    cases hok
  · refine ⟨n + 23172, fun fuel hfuel => (unixFactorNumber_eq hone hn hfuel).2 ?_⟩
    exact fun htoo => hfar.mp htoo h
  · exact ⟨n + 23172, fun fuel hfuel => (unixFactorNumber_eq hone hn hfuel).1 (hfar.mpr hnot)⟩

theorem factors_printed_sixty : Completes (fun fuel => unixFactorNumber fuel 60) (0, factorsPrinted 60) :=
  (factors_printed_iff (by decide) (by decide)).1.mpr (.inl (by decide))

end Factoring

end ZoraVM.Games
