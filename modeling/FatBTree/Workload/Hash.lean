import FatBTree.Workload.KeyName

/-!
# Hashed key numbers

`BuildKeyName` hashes the numbers of a counter.  Two numbers that differ in their four low
octets only never hash alike: over four rounds the prime keeps the contributions of the
octets apart.
-/

namespace FatBTree.Workload

/-- `kFNVPrime64`. -/
abbrev fnvPrime : BitVec 64 := 1099511628211

/-- One round of the loop of `FNVHash64`. -/
def fnvRound (hash octet : BitVec 64) : BitVec 64 :=
  (hash ^^^ octet) * fnvPrime

/-- The octet that round `i` reads. -/
def octet (val : BitVec 64) (i : Nat) : BitVec 64 :=
  (val >>> (8 * i)) &&& 0xff

/-- The rounds before round `count`. -/
def fnvRounds (val : BitVec 64) (count : Nat) : BitVec 64 :=
  (List.range count).foldl (fun hash i => fnvRound hash (octet val i)) 0xCBF29CE484222325

theorem fnvRounds_succ (val : BitVec 64) (count : Nat) :
    fnvRounds val (count + 1) = fnvRound (fnvRounds val count) (octet val count) := by
  rw [fnvRounds, List.range_succ, List.foldl_append, List.foldl_cons, List.foldl_nil, fnvRounds]

theorem fnvHash64_eq (val : BitVec 64) : fnvHash64 val = fnvRounds val 8 := by
  have hloop : ∀ count, (List.range count).foldl
      (fun (state : BitVec 64 × BitVec 64) _ =>
        ((state.1 ^^^ (state.2 &&& 0xff)) * 1099511628211, state.2 >>> 8))
      (0xCBF29CE484222325, val) = (fnvRounds val count, val >>> (8 * count)) := by
    intro count
    induction count with
    | zero => simp [fnvRounds]
    | succ count ih =>
        rw [List.range_succ, List.foldl_append, ih, List.foldl_cons, List.foldl_nil,
          fnvRounds_succ, ← BitVec.shiftRight_add]
        rfl
  rw [fnvHash64, hloop]

/-! ## One round -/

theorem mul_fnvPrime_injective {x y : BitVec 64} (heq : x * fnvPrime = y * fnvPrime) : x = y := by
  have hinverse : fnvPrime * 0xce965057aff6957b = 1#64 := by decide
  have hmul := congrArg (· * (0xce965057aff6957b : BitVec 64)) heq
  simpa only [BitVec.mul_assoc, hinverse, BitVec.mul_one] using hmul

/-- A round can be undone when the octet is known. -/
theorem fnvRound_injective {x y o : BitVec 64} (heq : fnvRound x o = fnvRound y o) : x = y := by
  have hxor := congrArg (· ^^^ o) (mul_fnvPrime_injective heq)
  simpa only [BitVec.xor_assoc, BitVec.xor_self, BitVec.xor_zero] using hxor

theorem toNat_octet_lt (val : BitVec 64) (i : Nat) : (octet val i).toNat < 256 := by
  have hle : (octet val i).toNat ≤ 255 := by
    rw [octet, BitVec.toNat_and]
    exact Nat.and_le_right
  omega

theorem ofInt_toNat (x : BitVec 64) : BitVec.ofInt 64 (x.toNat : Int) = x := by
  rw [BitVec.ofInt_natCast, BitVec.ofNat_toNat, BitVec.setWidth_eq]

/-- An octet moves a number by less than 256. -/
theorem xor_octet (x : BitVec 64) {o : BitVec 64} (ho : o.toNat < 256) :
    ∃ e : Int, -255 ≤ e ∧ e ≤ 255 ∧ x ^^^ o = x + BitVec.ofInt 64 e := by
  have hhigh : (x ^^^ o).toNat / 256 = x.toNat / 256 := by
    have hdiv : (x.toNat ^^^ o.toNat) / 2 ^ 8 = x.toNat / 2 ^ 8 ^^^ o.toNat / 2 ^ 8 :=
      Nat.xor_div_two_pow
    have hzero : o.toNat / 2 ^ 8 = 0 := Nat.div_eq_of_lt ho
    rw [hzero, Nat.xor_zero] at hdiv
    rw [BitVec.toNat_xor]
    exact hdiv
  refine ⟨(x ^^^ o).toNat - x.toNat, by omega, by omega, ?_⟩
  have hsum : x.toNat + (((x ^^^ o).toNat : Int) - x.toNat) = (x ^^^ o).toNat := by omega
  calc x ^^^ o = BitVec.ofInt 64 (x ^^^ o).toNat := (ofInt_toNat _).symm
    _ = BitVec.ofInt 64 (x.toNat + (((x ^^^ o).toNat : Int) - x.toNat)) := by rw [hsum]
    _ = x + BitVec.ofInt 64 (((x ^^^ o).toNat : Int) - x.toNat) := by
        rw [BitVec.ofInt_add, ofInt_toNat]

/-- How far two numbers are apart after the next octets. -/
theorem xor_octets {x y o o' : BitVec 64} {d : Int} (hd : x = y + BitVec.ofInt 64 d)
    (ho : o.toNat < 256) (ho' : o'.toNat < 256) :
    ∃ e : Int, -510 ≤ e ∧ e ≤ 510 ∧ x ^^^ o = (y ^^^ o') + BitVec.ofInt 64 (d + e) := by
  obtain ⟨e, hlow, hhigh, he⟩ := xor_octet x ho
  obtain ⟨e', hlow', hhigh', he'⟩ := xor_octet y ho'
  refine ⟨e - e', by omega, by omega, ?_⟩
  have hsum : e' + (d + (e - e')) = d + e := by omega
  rw [he, he', hd, BitVec.add_assoc, BitVec.add_assoc, ← BitVec.ofInt_add, ← BitVec.ofInt_add, hsum]

theorem mul_apart {x y : BitVec 64} {d : Int} (hd : x = y + BitVec.ofInt 64 d) :
    x * fnvPrime = y * fnvPrime + BitVec.ofInt 64 (d * 1099511628211) := by
  have hprime : fnvPrime = BitVec.ofInt 64 1099511628211 := by decide
  rw [hd, BitVec.add_mul, BitVec.ofInt_mul, ← hprime]

/-! ## Four rounds -/

/-- The contributions of four octets cancel only when there are none. -/
theorem contributions_eq_zero {d e f g : Int} (hd : -510 ≤ d ∧ d ≤ 510) (he : -510 ≤ e ∧ e ≤ 510)
    (hf : -510 ≤ f ∧ f ≤ 510) (hg : -510 ≤ g ∧ g ≤ 510)
    (hzero : (2 : Int) ^ 64 ∣ ((d * 1099511628211 + e) * 1099511628211 + f) * 1099511628211 + g) :
    d = 0 ∧ e = 0 ∧ f = 0 := by
  obtain ⟨q, hq⟩ := hzero
  -- modulo `2 ^ 64` the prime's powers have small coefficients at `2 ^ 40` and at 1
  obtain ⟨high, hhigh⟩ : ∃ high : Int, high = 567675 * d + 870 * e + f := ⟨_, rfl⟩
  obtain ⟨low, hlow⟩ : ∃ low : Int, low = 82312875 * d + 189225 * e + 435 * f + g := ⟨_, rfl⟩
  obtain ⟨wraps, hsplit⟩ : ∃ wraps : Int, 2 ^ 40 * high + low = 2 ^ 64 * wraps :=
    ⟨q - 72057594123452416 * d - 65536 * e, by subst hhigh hlow; omega⟩
  have hlowZero : low = 0 := by omega
  have hsmall : -1 ≤ d ∧ d ≤ 1 := by omega
  have hhighZero : high = 0 := by omega
  clear hq hsplit
  omega

theorem eq_of_rounds {a b : BitVec 64} {m : Nat} (hsame : ∀ i, m ≤ i → octet a i = octet b i)
    (n : Nat) (heq : fnvRounds a (m + n) = fnvRounds b (m + n)) : fnvRounds a m = fnvRounds b m := by
  induction n with
  | zero => exact heq
  | succ n ih =>
      rw [← Nat.add_assoc, fnvRounds_succ, fnvRounds_succ, hsame (m + n) (Nat.le_add_right m n)] at heq
      exact ih (fnvRound_injective heq)

/-- Equal hashes before and after an octet come from equal octets. -/
theorem octet_eq_of_rounds {a b : BitVec 64} {i : Nat} (hbefore : fnvRounds a i = fnvRounds b i)
    (hafter : fnvRounds a (i + 1) = fnvRounds b (i + 1)) : octet a i = octet b i := by
  rw [fnvRounds_succ, fnvRounds_succ, hbefore] at hafter
  have hxor := congrArg (fnvRounds b i ^^^ ·) (mul_fnvPrime_injective hafter)
  simpa only [← BitVec.xor_assoc, BitVec.xor_self, BitVec.zero_xor] using hxor

/-- Four rounds that end alike were alike all the way. -/
theorem rounds_eq_of_four {a b : BitVec 64} (heq : fnvRounds a 4 = fnvRounds b 4) :
    ∀ i, i ≤ 4 → fnvRounds a i = fnvRounds b i := by
  have hadd : ∀ x : BitVec 64, x + BitVec.ofInt 64 0 = x := by
    intro x
    have hzero : BitVec.ofInt 64 0 = 0#64 := by decide
    rw [hzero, BitVec.add_zero]
  have hnone : fnvRounds a 0 = fnvRounds b 0 := by
    rw [fnvRounds, fnvRounds, List.range_zero, List.foldl_nil, List.foldl_nil]
  have hstart : fnvRounds a 0 = fnvRounds b 0 + BitVec.ofInt 64 0 := by rw [hadd, hnone]
  have hround : ∀ i (d : Int), fnvRounds a i = fnvRounds b i + BitVec.ofInt 64 d →
      ∃ e : Int, -510 ≤ e ∧ e ≤ 510 ∧ fnvRounds a (i + 1) =
        fnvRounds b (i + 1) + BitVec.ofInt 64 ((d + e) * 1099511628211) := by
    intro i d hd
    obtain ⟨e, hlow, hhigh, he⟩ := xor_octets hd (toNat_octet_lt a i) (toNat_octet_lt b i)
    refine ⟨e, hlow, hhigh, ?_⟩
    rw [fnvRounds_succ, fnvRounds_succ]
    exact mul_apart he
  obtain ⟨d, hd, hd', h1⟩ := hround 0 0 hstart
  obtain ⟨e, he, he', h2⟩ := hround 1 _ h1
  obtain ⟨f, hf, hf', h3⟩ := hround 2 _ h2
  obtain ⟨g, hg, hg', h4⟩ := xor_octets h3 (toNat_octet_lt a 3) (toNat_octet_lt b 3)
  have hlast : fnvRounds a 3 ^^^ octet a 3 = fnvRounds b 3 ^^^ octet b 3 := by
    rw [fnvRounds_succ a 3, fnvRounds_succ b 3] at heq
    exact mul_fnvPrime_injective heq
  rw [Int.zero_add] at h1 h2 h3 h4
  rw [hlast, BitVec.self_eq_add_right] at h4
  have hzero : (2 : Int) ^ 64 ∣
      ((d * 1099511628211 + e) * 1099511628211 + f) * 1099511628211 + g := by
    have hint := congrArg BitVec.toInt h4
    rw [BitVec.toInt_ofInt, BitVec.toInt_zero] at hint
    exact Int.dvd_of_bmod_eq_zero hint
  obtain ⟨rfl, rfl, rfl⟩ :=
    contributions_eq_zero ⟨hd, hd'⟩ ⟨he, he'⟩ ⟨hf, hf'⟩ ⟨hg, hg'⟩ hzero
  intro i hi
  simp only [Int.zero_mul, Int.add_zero, hadd] at h1 h2 h3
  match i with
  | 0 => exact hnone
  | 1 => exact h1
  | 2 => exact h2
  | 3 => exact h3
  | 4 => exact heq
  | i + 5 => omega

theorem octet_of_shiftRight {a b : BitVec 64} (hhigh : a >>> 32 = b >>> 32) {i : Nat} (hi : 4 ≤ i) :
    octet a i = octet b i := by
  have hshift : 8 * i = 32 + (8 * i - 32) := by omega
  rw [octet, octet, hshift, BitVec.shiftRight_add, BitVec.shiftRight_add, hhigh]

/-- A number is its octets. -/
theorem eq_of_octets {a b : BitVec 64} (hsame : ∀ i, octet a i = octet b i) : a = b := by
  have hmask : ∀ k, k < 8 → (0xff : BitVec 64).getLsbD k = true := by decide
  have hbit : ∀ (c : BitVec 64) j, (octet c (j / 8)).getLsbD (j % 8) = c.getLsbD j := by
    intro c j
    rw [octet, BitVec.getLsbD_and, BitVec.getLsbD_ushiftRight, Nat.div_add_mod,
      hmask _ (Nat.mod_lt j (by decide)), Bool.and_true]
  refine BitVec.eq_of_getLsbD_eq fun j _ => ?_
  rw [← hbit a j, ← hbit b j, hsame]

/-- Numbers that agree from their fifth octet on have hashes of their own. -/
theorem fnvHash64_inj_of_high {a b : BitVec 64} (hhigh : a >>> 32 = b >>> 32) :
    fnvHash64 a = fnvHash64 b ↔ a = b := by
  refine ⟨fun heq => ?_, fun heq => heq ▸ rfl⟩
  rw [fnvHash64_eq, fnvHash64_eq] at heq
  have hrounds := rounds_eq_of_four (eq_of_rounds (fun i hi => octet_of_shiftRight hhigh hi) 4 heq)
  refine eq_of_octets fun i => ?_
  rcases Nat.lt_or_ge i 4 with hlt | hge
  · exact octet_eq_of_rounds (hrounds i hlt.le) (hrounds (i + 1) hlt)
  · exact octet_of_shiftRight hhigh hge

/-- The name of a number determines it, whether it is hashed or not. -/
theorem buildKeyName_inj {orderedInserts : Bool} {zeroPadding : Nat} {a b : BitVec 64}
    (hhigh : a >>> 32 = b >>> 32) :
    buildKeyName orderedInserts zeroPadding a = buildKeyName orderedInserts zeroPadding b ↔ a = b := by
  refine ⟨fun heq => ?_, fun heq => heq ▸ rfl⟩
  have hpadded : ∀ c d : BitVec 64,
      padded zeroPadding c.toNat = padded zeroPadding d.toNat → c = d := by
    intro c d hsame
    have hvalue := congrArg (fun digits => Nat.ofDigitChars 10 digits 0) hsame
    simp only [padded_value] at hvalue
    exact BitVec.eq_of_toNat_eq hvalue
  simp only [buildKeyName, List.append_assoc, List.append_cancel_left_eq] at heq
  have hnumber := hpadded _ _ heq
  cases orderedInserts with
  | true => exact hnumber
  | false => exact (fnvHash64_inj_of_high hhigh).mp hnumber

end FatBTree.Workload
