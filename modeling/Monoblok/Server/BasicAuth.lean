import Monoblok.Lib.Base64
import Monoblok.Server.HttpAuth

/-!
# Basic authentication

The decoder keeps the bits read that do not fill a byte yet. Behind every group of
digits there are none, so that an encoding decodes to what was encoded.
-/

namespace Monoblok.Http

open Base64

/-! ## One digit -/

theorem base64Value_digit : ∀ v < 64, base64Value (digit v) = some (UInt32.ofNat v) := by decide

theorem digit_ne_pad : ∀ v < 64, (digit v == 0x3d) = false := by decide

theorem not_blank_digit : ∀ v < 64, (isOws (digit v) || digit v == cr) = false := by decide

/-- The accumulator takes in six more bits. -/
theorem accumulated {n v : ℕ} (hn : n < 2 ^ 6) (hv : v < 64) :
    (UInt32.ofNat n <<< 6 ||| UInt32.ofNat v) &&& 0xffffff = UInt32.ofNat (n * 64 + v) := by
  have hn' : n % 2 ^ 32 = n := Nat.mod_eq_of_lt (by omega)
  have hv' : v % 2 ^ 32 = v := Nat.mod_eq_of_lt (by omega)
  have hshift : n <<< 6 % 2 ^ 32 = n <<< 6 := by
    rw [Nat.shiftLeft_eq]
    exact Nat.mod_eq_of_lt (by omega)
  have hor : n <<< 6 ||| v = n * 64 + v := by
    rw [← Nat.shiftLeft_add_eq_or_of_lt (by simpa using hv), Nat.shiftLeft_eq]
  apply UInt32.toNat_inj.mp
  calc ((UInt32.ofNat n <<< 6 ||| UInt32.ofNat v) &&& 0xffffff).toNat
      = ((n % 2 ^ 32) <<< 6 % 2 ^ 32 ||| v % 2 ^ 32) &&& (2 ^ 24 - 1) := rfl
    _ = (n * 64 + v) % 2 ^ 24 := by
      rw [hn', hv', hshift, hor, Nat.and_two_pow_sub_one_eq_mod]
    _ = (n * 64 + v) % 2 ^ 32 := by omega
    _ = (UInt32.ofNat (n * 64 + v)).toNat := rfl

/-- The high bits go out as a byte, and the low ones stay. -/
theorem emitted {m r : ℕ} (hr : r = 0 ∨ r = 2 ∨ r = 4) (hm : m < 2 ^ 12) :
    (UInt32.ofNat m >>> UInt32.ofNat r).toUInt8 = UInt8.ofNat (m / 2 ^ r) ∧
      UInt32.ofNat m &&& ((1 <<< UInt32.ofNat r) - 1) = UInt32.ofNat (m % 2 ^ r) := by
  have hm' : m % 2 ^ 32 = m := Nat.mod_eq_of_lt (by omega)
  have hshift : r % 2 ^ 32 % 32 = r := by omega
  have hmask : ((1 <<< UInt32.ofNat r) - 1 : UInt32).toNat = 2 ^ r - 1 := by
    rcases hr with rfl | rfl | rfl <;> rfl
  constructor
  · apply UInt8.toNat_inj.mp
    simp only [UInt32.toNat_toUInt8, UInt32.toNat_shiftRight, UInt32.toNat_ofNat', hm',
      UInt8.toNat_ofNat', hshift, Nat.shiftRight_eq_div_pow]
  · apply UInt32.toNat_inj.mp
    have hlt := Nat.mod_le m (2 ^ r)
    simp only [UInt32.toNat_and, hmask, UInt32.toNat_ofNat', hm', Nat.and_two_pow_sub_one_eq_mod]
    exact (Nat.mod_eq_of_lt (by omega)).symm

section Loop

variable {ok : ℕ → Bool} {n v r : ℕ} {out cs : Bytes}

/-- A digit that does not complete a byte. -/
theorem base64Loop_keep (hv : v < 64) :
    base64Loop ok 0 0 false out (digit v :: cs) =
      base64Loop ok (UInt32.ofNat v) 6 false out cs := by
  have hacc := accumulated (n := 0) (by decide) hv
  rw [Nat.zero_mul, Nat.zero_add] at hacc
  conv => lhs; unfold base64Loop
  simp only [digit_ne_pad v hv, base64Value_digit v hv, Bool.false_eq_true, if_false]
  exact congrArg (base64Loop ok · 6 false out cs) hacc

/-- A digit that completes a byte and leaves `r` bits. -/
theorem base64Loop_emit (hr : r = 0 ∨ r = 2 ∨ r = 4) (hn : n < 2 ^ (r + 2)) (hv : v < 64) :
    base64Loop ok (UInt32.ofNat n) (r + 2) false out (digit v :: cs) =
      if ok out.length then
        base64Loop ok (UInt32.ofNat ((n * 64 + v) % 2 ^ r)) r false
          (out ++ [UInt8.ofNat ((n * 64 + v) / 2 ^ r)]) cs
      else none := by
  have hsmall : n < 2 ^ 6 := by
    rcases hr with rfl | rfl | rfl <;> omega
  obtain ⟨hbyte, hlow⟩ := emitted hr (m := n * 64 + v) (by omega)
  have hbits : r + 2 + 6 - 8 = r := by omega
  have henough : 8 ≤ r + 2 + 6 := by omega
  conv => lhs; unfold base64Loop
  simp only [digit_ne_pad v hv, base64Value_digit v hv, accumulated hsmall hv, henough, if_true,
    hbits, hbyte, hlow, Bool.false_eq_true, if_false]
  cases ok out.length <;> simp

theorem base64Loop_pad {acc : UInt32} {bits : ℕ} {padded : Bool} :
    base64Loop ok acc bits padded out (pad :: cs) = base64Loop ok acc bits true out cs := by
  conv => lhs; unfold base64Loop
  exact if_pos (by decide)

/-- The padding adds nothing. -/
theorem base64Loop_padding {acc : UInt32} {bits k : ℕ} {padded : Bool} :
    base64Loop ok acc bits padded out (List.replicate k pad) = some out := by
  induction k generalizing padded with
  | zero => rfl
  | succ k ih => rw [List.replicate_succ, base64Loop_pad, ih]

/-- The first byte of a group. -/
theorem base64Loop_first {a : UInt8} {low : ℕ} (hlow : low < 16) :
    base64Loop ok 0 0 false out (digit (a.toNat / 4) :: digit (a.toNat % 4 * 16 + low) :: cs) =
      if ok out.length then base64Loop ok (UInt32.ofNat low) 4 false (out ++ [a]) cs else none := by
  have ha := a.toNat_lt
  have hbyte : (a.toNat / 4 * 64 + (a.toNat % 4 * 16 + low)) / 2 ^ 4 = a.toNat := by omega
  have hrest : (a.toNat / 4 * 64 + (a.toNat % 4 * 16 + low)) % 2 ^ 4 = low := by omega
  rw [base64Loop_keep (by omega), base64Loop_emit (r := 4) (by simp) (by omega) (by omega), hbyte,
    hrest, UInt8.ofNat_toNat]

theorem base64Loop_second {b : UInt8} {low : ℕ} (hlow : low < 4) :
    base64Loop ok (UInt32.ofNat (b.toNat / 16)) 4 false out (digit (b.toNat % 16 * 4 + low) :: cs) =
      if ok out.length then base64Loop ok (UInt32.ofNat low) 2 false (out ++ [b]) cs else none := by
  have hb := b.toNat_lt
  have hbyte : (b.toNat / 16 * 64 + (b.toNat % 16 * 4 + low)) / 2 ^ 2 = b.toNat := by omega
  have hrest : (b.toNat / 16 * 64 + (b.toNat % 16 * 4 + low)) % 2 ^ 2 = low := by omega
  rw [base64Loop_emit (r := 2) (by simp) (by omega) (by omega), hbyte, hrest, UInt8.ofNat_toNat]

theorem base64Loop_third {c : UInt8} :
    base64Loop ok (UInt32.ofNat (c.toNat / 64)) 2 false out (digit (c.toNat % 64) :: cs) =
      if ok out.length then base64Loop ok 0 0 false (out ++ [c]) cs else none := by
  have hc := c.toNat_lt
  have hbyte : (c.toNat / 64 * 64 + c.toNat % 64) / 2 ^ 0 = c.toNat := by omega
  have hrest : (c.toNat / 64 * 64 + c.toNat % 64) % 2 ^ 0 = 0 := by omega
  rw [base64Loop_emit (r := 0) (by simp) (by omega) (by omega), hbyte, hrest, UInt8.ofNat_toNat]
  rfl

/-- An encoding is decoded if there is room for what it encodes. -/
theorem base64Loop_encode {padded : Bool} {bs : Bytes} :
    base64Loop ok 0 0 false out (encode padded bs) =
      if hasRoom ok out.length bs.length then some (out ++ bs) else none := by
  fun_induction encode padded bs generalizing out with
  | case1 => simp [base64Loop, hasRoom]
  | case2 a =>
    have hfirst := @base64Loop_first ok out (if padded then [pad, pad] else []) a 0 (by decide)
    rw [Nat.add_zero] at hfirst
    have hpad : base64Loop ok (UInt32.ofNat 0) 4 false (out ++ [a])
        (if padded then [pad, pad] else []) = some (out ++ [a]) := by
      cases padded
      · exact base64Loop_padding (k := 0)
      · exact base64Loop_padding (k := 2)
    rw [hfirst, hpad]
    simp [hasRoom]
  | case3 a b =>
    have hb := b.toNat_lt
    have hsecond := @base64Loop_second ok (out ++ [a]) (if padded then [pad] else []) b 0
      (by decide)
    rw [Nat.add_zero] at hsecond
    rw [base64Loop_first (by omega), hsecond]
    have hpad : base64Loop ok (UInt32.ofNat 0) 2 false (out ++ [a] ++ [b])
        (if padded then [pad] else []) = some (out ++ [a] ++ [b]) := by
      cases padded
      · exact base64Loop_padding (k := 0)
      · exact base64Loop_padding (k := 1)
    rw [hpad]
    cases h₁ : ok out.length <;> cases h₂ : ok (out.length + 1) <;> simp [hasRoom, h₁, h₂]
  | case4 a b c rest ih =>
    have hb := b.toNat_lt
    have hc := c.toNat_lt
    rw [base64Loop_first (by omega), base64Loop_second (by omega), base64Loop_third, ih]
    cases h₁ : ok out.length <;> cases h₂ : ok (out.length + 1) <;>
      cases h₃ : ok (out.length + 2) <;> simp [hasRoom, h₁, h₂, h₃]

end Loop

/-- An encoding decodes to what was encoded if there is memory for it. -/
theorem base64Decode_encode (ok : ℕ → Bool) (padded : Bool) (bs : Bytes) :
    base64Decode ok (encode padded bs) = if hasRoom ok 0 bs.length then some bs else none := by
  have h := @base64Loop_encode ok [] padded bs
  rwa [List.length_nil, List.nil_append] at h

/-! ## Credentials -/

theorem not_blank_of_isDigit {c : UInt8} (h : IsDigit c) : (isOws c || c == cr) = false := by
  rcases h with rfl | ⟨v, hv, rfl⟩
  · decide
  · exact not_blank_digit v hv

/-- Nothing but the blank before an encoding is trimmed. -/
theorem trimOws_encode {padded : Bool} {bs : Bytes} :
    trimOws (space :: encode padded bs) = encode padded bs := by
  have hmem : ∀ c ∈ encode padded bs, (isOws c || c == cr) = false :=
    fun c hc => not_blank_of_isDigit (isDigit_of_mem c hc)
  have hfront : (space :: encode padded bs).dropWhile isOws = encode padded bs := by
    rw [List.dropWhile_cons_of_pos (by decide)]
    apply List.dropWhile_eq_self_iff.mpr
    intro hpos
    have h := hmem _ (List.getElem_mem hpos)
    simp_all
  have hback : (encode padded bs).reverse.dropWhile (fun c => isOws c || c == cr) =
      (encode padded bs).reverse := by
    apply List.dropWhile_eq_self_iff.mpr
    intro hpos
    have h := hmem _ (List.mem_reverse.mp (List.getElem_mem hpos))
    simpa using h
  unfold trimOws
  rw [hfront, hback, List.reverse_reverse]

/-- The first colon splits the credentials of a user without one. -/
theorem credentials_iff {user pass x : Bytes} (huser : colon ∉ user) :
    (x.contains colon = true ∧ x.takeWhile (· != colon) = user ∧
      x.drop ((x.takeWhile (· != colon)).length + 1) = pass) ↔ x = user ++ colon :: pass := by
  constructor
  · rintro ⟨hcolon, rfl, rfl⟩
    exact split_colon hcolon
  · rintro rfl
    have hclear : ∀ c ∈ user, (c != colon) = true := by
      intro c hc
      have hne : c ≠ colon := fun heq => huser (heq ▸ hc)
      simpa using hne
    have htake : (user ++ colon :: pass).takeWhile (· != colon) = user := by
      rw [List.takeWhile_append_of_pos hclear]
      simp
    refine ⟨by simp, htake, ?_⟩
    rw [htake]
    simp

/-- Encoded credentials are accepted exactly if they are those of the configuration and there
is memory to decode them. -/
theorem authBasic_encode_iff (ok : ℕ → Bool) (padded : Bool) (token : Option Bytes)
    {user : Bytes} (pass x : Bytes) (huser : colon ∉ user) :
    authBasic ok ⟨.userPass, token, some user, some pass⟩ (lit "Basic " ++ encode padded x) = true ↔
      x = user ++ colon :: pass ∧ hasRoom ok 0 x.length = true := by
  have hstart : startsCi (lit "Basic " ++ encode padded x) (lit "Basic") = true := by
    simp [startsCi, lit]
  have hdrop : (lit "Basic " ++ encode padded x).drop 5 = space :: encode padded x := rfl
  unfold authBasic
  simp only [hstart, hdrop, trimOws_encode, base64Decode_encode, Bool.true_and]
  cases hroom : hasRoom ok 0 x.length with
  | false => simp
  | true =>
    have hsplit := @credentials_iff user pass x huser
    have hmatch : authUserPassMatches ⟨.userPass, token, some user, some pass⟩
        (x.takeWhile (· != colon)) (x.drop ((x.takeWhile (· != colon)).length + 1)) = true ↔
        x.takeWhile (· != colon) = user ∧
          x.drop ((x.takeWhile (· != colon)).length + 1) = pass := by
      simp only [authUserPassMatches, secretMatchesSlice, beq_self_eq_true, Bool.true_and,
        Bool.and_eq_true, beq_iff_eq, Option.some.injEq]
      exact and_congr eq_comm eq_comm
    rw [if_pos rfl, Bool.and_eq_true, Bool.and_eq_true, hmatch, hsplit]
    constructor
    · rintro ⟨-, heq⟩
      exact ⟨heq, rfl⟩
    · rintro ⟨heq, -⟩
      have hne : encode padded x ≠ [] := by simp [encode_eq_nil, heq]
      exact ⟨by simpa using hne, heq⟩

/-- An encoding decodes to what was encoded, and encoded credentials are accepted exactly if
they are those of the configuration; both if there is memory to decode them. -/
theorem basic_credentials (ok : ℕ → Bool) (padded : Bool) :
    (∀ bs, base64Decode ok (encode padded bs) =
      if hasRoom ok 0 bs.length then some bs else none) ∧
    ∀ (token : Option Bytes) (user pass x : Bytes), colon ∉ user →
      (authBasic ok ⟨.userPass, token, some user, some pass⟩
        (lit "Basic " ++ encode padded x) = true ↔
      x = user ++ colon :: pass ∧ hasRoom ok 0 x.length = true) :=
  ⟨base64Decode_encode ok padded, fun token _ pass x huser =>
    authBasic_encode_iff ok padded token pass x huser⟩

theorem basic_credentials_user :
    colon ∉ lit "user" ∧
      base64Decode (fun _ => true) (lit "dXNlcjpwYXNz") = some (lit "user:pass") ∧
      authBasic (fun _ => true) ⟨.userPass, none, some (lit "user"), some (lit "pass")⟩
        (lit "Basic dXNlcjpwYXNz") = true := by
  have hencode : lit "dXNlcjpwYXNz" = encode true (lit "user:pass") := by decide +kernel
  have hvalue : lit "Basic dXNlcjpwYXNz" = lit "Basic " ++ encode true (lit "user:pass") := by
    decide +kernel
  have hcolon : colon ∉ lit "user" := by decide +kernel
  obtain ⟨hdecode, haccept⟩ := basic_credentials (fun _ => true) true
  refine ⟨hcolon, ?_, ?_⟩
  · rw [hencode]
    exact (hdecode (lit "user:pass")).trans (by decide +kernel)
  · rw [hvalue]
    apply (haccept none (lit "user") (lit "pass") (lit "user:pass") hcolon).mpr
    decide +kernel

end Monoblok.Http
