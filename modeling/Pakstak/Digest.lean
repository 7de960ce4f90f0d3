/-
  `digest.rs`: digests of the form `<algorithm>:<hex>` and the check of bytes against one.

  The hash functions are the crate `ring`; here they are a parameter `hash`. A verifier
  keeps the bytes fed to its context, and hashes them at the end.

  Proved:
  * `new_eq_ok_iff`: the strings that name a digest (`Digest.WellFormed` is that form).
  * `plain_of_wellFormed`, `plain_json_of_wellFormed`: such a string, and the manifest file
    named after it, is one plain path component; `trim_of_wellFormed`: it has no white space
    to trim.
  * `verifyBytes_eq_ok_iff`: what a successful check means.
  * `verifyBytes_spells_iff`: a digest is accepted for some bytes exactly if it spells their hash,
    but for digests with plus signs in the place of zeros, which are accepted too.
-/
import Pakstak.Lib.Text

namespace Pakstak

open Posix Text

/-- The algorithms of `ring::digest` in use. -/
inductive Algorithm where
  | sha256 | sha384 | sha512
  deriving DecidableEq

def Algorithm.outputLen : Algorithm → Nat
  | .sha256 => 32
  | .sha384 => 48
  | .sha512 => 64

def algorithm (name : Bytes) : Option Algorithm :=
  if name = utf8 "sha256" then some .sha256
  else if name = utf8 "sha384" then some .sha384
  else if name = utf8 "sha512" then some .sha512
  else none

def algorithmName : Algorithm → Bytes
  | .sha256 => utf8 "sha256"
  | .sha384 => utf8 "sha384"
  | .sha512 => utf8 "sha512"

/-! ## Hex -/

inductive HexError where
  | oddLength
  | notUtf8 (pair : Bytes)
  | invalidByte (pair : Bytes)
  | wrongLength (expected : Nat) (algorithm : Bytes) (got : Nat)
  deriving DecidableEq

/-- `char::to_digit` in base 16. -/
def toDigit (b : UInt8) : Option Nat :=
  if 48 ≤ b ∧ b ≤ 57 then some (b.toNat - 48)
  else if 97 ≤ b ∧ b ≤ 102 then some (b.toNat - 87)
  else if 65 ≤ b ∧ b ≤ 70 then some (b.toNat - 55)
  else none

/-- The value of the digits `s` after `acc`, or `none` at a bad digit or above `u8::MAX`. -/
def fromDigits : Nat → Bytes → Option Nat
  | acc, [] => some acc
  | acc, b :: rest =>
    match toDigit b with
    | none => none
    | some d => if 255 < acc * 16 + d then none else fromDigits (acc * 16 + d) rest

/-- `u8::from_str_radix` in base 16: not empty, one `+` allowed in front of digits. -/
def fromStrRadix16 : Bytes → Option Nat
  | [] => none
  | [b] => fromDigits 0 [b]
  | b :: rest => if b = 43 then fromDigits 0 rest else fromDigits 0 (b :: rest)

def hexByte (pair : Bytes) : Except HexError UInt8 :=
  if ¬ validUtf8 pair then .error (.notUtf8 pair)
  else
    match fromStrRadix16 pair with
    | none => .error (.invalidByte pair)
    | some n => .ok (UInt8.ofNat n)

/-- `chunks_exact(2)`, decoded up to the first error. -/
def decodePairs : Bytes → Except HexError Bytes
  | a :: b :: rest => do
    let byte ← hexByte [a, b]
    let bytes ← decodePairs rest
    return byte :: bytes
  | _ => .ok []

def decodeHex (hex : Bytes) : Except HexError Bytes :=
  if hex.length % 2 ≠ 0 then .error .oddLength else decodePairs hex

/-- `make_ascii_lowercase`, for one byte. -/
def asciiLower (b : UInt8) : UInt8 := if 65 ≤ b ∧ b ≤ 90 then b + 32 else b

/-- A digit in lower case. -/
def hexDigit (n : Nat) : UInt8 := UInt8.ofNat (if n < 10 then 48 + n else 87 + n)

/-- `encode_hex`: two digits a byte. -/
def encodeHex (bytes : Bytes) : Bytes :=
  bytes.flatMap fun b => [hexDigit (b.toNat / 16), hexDigit (b.toNat % 16)]

/-! ## The verifier -/

inductive DigestError where
  | invalidFormat (digest : Bytes)
  | unsupportedAlgorithm (name : Bytes)
  | invalidHex (digest : Bytes) (reason : HexError)
  | verificationFailed (expected actual : Bytes) (algorithm : Algorithm)
  deriving DecidableEq

structure DigestVerifier where
  alg : Algorithm
  expected : Bytes
  /-- The bytes fed to the hash context. -/
  context : Bytes
  deriving DecidableEq

def DigestVerifier.new (digest : Bytes) : Except DigestError DigestVerifier :=
  match splitOnce 58 digest with
  | none => .error (.invalidFormat digest)
  | some (name, hex) =>
    match algorithm name with
    | none => .error (.unsupportedAlgorithm name)
    | some alg =>
      match decodeHex hex with
      | .error reason => .error (.invalidHex digest reason)
      | .ok bytes =>
        if bytes.length ≠ alg.outputLen then
          .error (.invalidHex digest (.wrongLength alg.outputLen name bytes.length))
        else .ok ⟨alg, bytes, []⟩

def DigestVerifier.update (v : DigestVerifier) (bytes : Bytes) : DigestVerifier :=
  { v with context := v.context ++ bytes }

def DigestVerifier.verify (hash : Algorithm → Bytes → Bytes) (v : DigestVerifier) :
    Except DigestError Unit :=
  if hash v.alg v.context = v.expected then .ok ()
  else .error (.verificationFailed v.expected (hash v.alg v.context) v.alg)

def verifyBytes (hash : Algorithm → Bytes → Bytes) (bytes expectedDigest : Bytes) :
    Except DigestError Unit := do
  let verifier ← DigestVerifier.new expectedDigest
  (verifier.update bytes).verify hash

/-! ## Digest strings -/

/-- `bytes` passes the check under the digest `d`. -/
def Verifies (hash : Algorithm → Bytes → Bytes) (bytes d : Bytes) : Prop :=
  verifyBytes hash bytes d = .ok ()

instance (hash : Algorithm → Bytes → Bytes) (bytes d : Bytes) :
    Decidable (Verifies hash bytes d) :=
  inferInstanceAs (Decidable (_ = _))

/-- The form `DigestVerifier::new` accepts. -/
def WellFormed (d : Bytes) : Prop := ∃ v, DigestVerifier.new d = .ok v

instance (d : Bytes) : Decidable (WellFormed d) :=
  match h : DigestVerifier.new d with
  | .ok v => isTrue ⟨v, h⟩
  | .error e => isFalse fun ⟨v, hv⟩ => by rw [h] at hv; cases hv

theorem new_eq_ok_iff {d : Bytes} {v : DigestVerifier} :
    DigestVerifier.new d = .ok v ↔
      ∃ name hex alg bytes, splitOnce 58 d = some (name, hex) ∧ algorithm name = some alg ∧
        decodeHex hex = .ok bytes ∧ bytes.length = alg.outputLen ∧ v = ⟨alg, bytes, []⟩ := by
  rw [DigestVerifier.new]
  constructor
  · intro h
    split at h
    · cases h
    · rename_i name hex hs
      split at h
      · cases h
      · rename_i alg ha
        split at h
        · cases h
        · rename_i bytes hb
          split at h
          · cases h
          · rename_i hl
            cases h
            exact ⟨name, hex, alg, bytes, hs, ha, hb, not_not.mp hl, rfl⟩
  · rintro ⟨name, hex, alg, bytes, hs, ha, hb, hl, rfl⟩
    simp [hs, ha, hb, hl]

theorem verifyBytes_eq_ok_iff {hash : Algorithm → Bytes → Bytes} {bytes d : Bytes} :
    verifyBytes hash bytes d = .ok () ↔
      ∃ v, DigestVerifier.new d = .ok v ∧ hash v.alg bytes = v.expected := by
  rw [verifyBytes]
  cases hv : DigestVerifier.new d with
  | error e => simp [bind, Except.bind]
  | ok v =>
    obtain ⟨name, hex, alg, b, -, -, -, -, rfl⟩ := new_eq_ok_iff.mp hv
    simp only [bind, Except.bind, DigestVerifier.update, DigestVerifier.verify, List.nil_append,
      Except.ok.injEq, exists_eq_left']
    by_cases hb : hash alg bytes = b <;> simp [hb]

theorem wellFormed_of_verifies {hash : Algorithm → Bytes → Bytes} {bytes d : Bytes}
    (h : Verifies hash bytes d) : WellFormed d := by
  obtain ⟨v, hv, -⟩ := verifyBytes_eq_ok_iff.mp h
  exact ⟨v, hv⟩

/-! ## A digest string is a plain path component -/

/-- A character a digest string can have: visible ASCII and no slash. -/
def DigestChar (b : UInt8) : Prop := Graphic b ∧ b ≠ slashByte

instance (b : UInt8) : Decidable (DigestChar b) := inferInstanceAs (Decidable (_ ∧ _))

theorem digestChar_of_toDigit {b : UInt8} {n : Nat} (h : toDigit b = some n) : DigestChar b := by
  have key : ∀ k : Fin 256, ∀ n, toDigit (UInt8.ofNat k) = some n → DigestChar (UInt8.ofNat k) := by
    intro k n hk
    have hs : (toDigit (UInt8.ofNat k)).isSome := by rw [hk]; rfl
    clear hk
    revert k
    decide +kernel
  have hb := key ⟨b.toNat, b.toNat_lt⟩ n
  simp only [UInt8.ofNat_toNat] at hb
  exact hb h

theorem digestChar_of_fromDigits {acc n : Nat} {s : Bytes} (h : fromDigits acc s = some n) :
    ∀ b ∈ s, DigestChar b := by
  induction s generalizing acc with
  | nil => intro b hb; cases hb
  | cons c rest ih =>
    rw [fromDigits] at h
    split at h
    · cases h
    · rename_i d hd
      split at h
      · cases h
      · intro b hb
        rcases List.mem_cons.mp hb with rfl | hb
        · exact digestChar_of_toDigit hd
        · exact ih h b hb

theorem digestChar_of_hexByte {a b x : UInt8} (h : hexByte [a, b] = .ok x) :
    DigestChar a ∧ DigestChar b := by
  rw [hexByte] at h
  split at h
  · cases h
  · split at h
    · cases h
    · rename_i n hn
      rw [fromStrRadix16] at hn
      · split at hn
        · rename_i ha
          exact ⟨ha ▸ by decide, digestChar_of_fromDigits hn b (by simp)⟩
        · have := digestChar_of_fromDigits hn
          exact ⟨this a (by simp), this b (by simp)⟩
      · simp

theorem digestChar_of_decodePairs : ∀ {hex bytes : Bytes}, decodePairs hex = .ok bytes →
    hex.length % 2 = 0 → ∀ b ∈ hex, DigestChar b
  | [], _, _, _ => fun b hb => by cases hb
  | [_], _, _, hl => by simp at hl
  | a :: c :: rest, bytes, h, hl => by
    rw [decodePairs] at h
    cases hx : hexByte [a, c] with
    | error e => rw [hx] at h; cases h
    | ok x =>
      cases hr : decodePairs rest with
      | error e => rw [hx, hr] at h; cases h
      | ok xs =>
        have hac := digestChar_of_hexByte hx
        have hrest := digestChar_of_decodePairs hr (by simp at hl; omega)
        intro b hb
        rcases List.mem_cons.mp hb with rfl | hb
        · exact hac.1
        · rcases List.mem_cons.mp hb with rfl | hb
          · exact hac.2
          · exact hrest b hb

theorem digestChar_of_algorithm {name : Bytes} {alg : Algorithm}
    (h : algorithm name = some alg) : ∀ b ∈ name, DigestChar b := by
  rw [algorithm] at h
  split at h
  · rename_i hn; rw [hn]; decide +kernel
  · split at h
    · rename_i hn; rw [hn]; decide +kernel
    · split at h
      · rename_i hn; rw [hn]; decide +kernel
      · cases h

theorem digestChar_of_wellFormed {d : Bytes} (h : WellFormed d) : ∀ b ∈ d, DigestChar b := by
  obtain ⟨v, hv⟩ := h
  obtain ⟨name, hex, alg, bytes, hs, ha, hb, -, -⟩ := new_eq_ok_iff.mp hv
  rw [splitOnce_eq_some hs]
  rw [decodeHex] at hb
  split at hb
  · cases hb
  · rename_i hl
    intro b hm
    rcases List.mem_append.mp hm with hm | hm
    · exact digestChar_of_algorithm ha b hm
    · rcases List.mem_cons.mp hm with rfl | hm
      · decide
      · exact digestChar_of_decodePairs hb (not_not.mp hl) b hm

theorem colon_mem_of_wellFormed {d : Bytes} (h : WellFormed d) : (58 : UInt8) ∈ d := by
  obtain ⟨v, hv⟩ := h
  obtain ⟨name, hex, alg, bytes, hs, -, -, -, -⟩ := new_eq_ok_iff.mp hv
  rw [splitOnce_eq_some hs]
  simp

theorem trim_of_wellFormed {d : Bytes} (h : WellFormed d) : trim d = d :=
  trim_eq_self fun b hb => (digestChar_of_wellFormed h b hb).1

/-- A digest with any slash-free text after it is a plain name. -/
theorem plain_append_of_wellFormed {d s : Bytes} (h : WellFormed d) (hs : slashByte ∉ s) :
    Plain (d ++ s) where
  ne_nil he := by
    have := colon_mem_of_wellFormed h
    simp [(List.append_eq_nil_iff.mp he).1] at this
  no_slash hm := by
    rcases List.mem_append.mp hm with hm | hm
    · exact (digestChar_of_wellFormed h _ hm).2 rfl
    · exact hs hm
  ne_dot he := by
    have : (58 : UInt8) ∈ d ++ s := List.mem_append_left _ (colon_mem_of_wellFormed h)
    rw [he] at this
    exact absurd this (by decide)
  ne_dotdot he := by
    have : (58 : UInt8) ∈ d ++ s := List.mem_append_left _ (colon_mem_of_wellFormed h)
    rw [he] at this
    exact absurd this (by decide)

theorem plain_of_wellFormed {d : Bytes} (h : WellFormed d) : Plain d := by
  have := plain_append_of_wellFormed (s := []) h (by simp)
  rwa [List.append_nil] at this

theorem plain_json_of_wellFormed {d : Bytes} (h : WellFormed d) : Plain (d ++ utf8 ".json") :=
  plain_append_of_wellFormed h (by decide +kernel)

theorem DigestChar.ascii {b : UInt8} (h : DigestChar b) : b < 0x80 :=
  Nat.lt_of_le_of_lt (UInt8.le_iff_toNat_le.mp h.1.2) (by decide)

theorem validUtf8_of_wellFormed {d : Bytes} (h : WellFormed d) : validUtf8 d = true :=
  validUtf8_of_ascii fun b hb => (digestChar_of_wellFormed h b hb).ascii

/-! ## What is accepted as a name for some bytes -/

/-- `0` to `9`, `a` to `f` and `A` to `F`. -/
def HexChar (b : UInt8) : Prop := (48 ≤ b ∧ b ≤ 57) ∨ (97 ≤ b ∧ b ≤ 102) ∨ (65 ≤ b ∧ b ≤ 70)

instance (b : UInt8) : Decidable (HexChar b) := inferInstanceAs (Decidable (_ ∨ _))

/-- `d` is the name of an algorithm, a colon, and the hash of `bytes` in hex. -/
def Spells (hash : Algorithm → Bytes → Bytes) (bytes d : Bytes) : Prop :=
  ∃ alg hex, d = algorithmName alg ++ 58 :: hex ∧ (∀ b ∈ hex, HexChar b) ∧
    hex.map asciiLower = encodeHex (hash alg bytes)

/-- A plus sign that starts a pair, read as a zero. -/
def readSigns : Bytes → Bytes
  | a :: b :: rest => (if a = 43 then 48 else a) :: b :: readSigns rest
  | s => s

/-- `d` has plus signs in the place of zeros of the hash. -/
def SpellsWithSigns (hash : Algorithm → Bytes → Bytes) (bytes d : Bytes) : Prop :=
  ∃ alg hex, d = algorithmName alg ++ 58 :: hex ∧ 43 ∈ hex ∧
    (readSigns hex).map asciiLower = encodeHex (hash alg bytes)

theorem toDigit_lt {b : UInt8} {n : Nat} (h : toDigit b = some n) : n < 16 := by
  have key : ∀ k : Fin 256, ∀ n ∈ toDigit (UInt8.ofNat k), n < 16 := by decide +kernel
  have hb := key ⟨b.toNat, b.toNat_lt⟩ n
  rw [UInt8.ofNat_toNat] at hb
  exact hb h

theorem toDigit_eq_some_iff {b : UInt8} {n : Nat} (hn : n < 16) :
    toDigit b = some n ↔ asciiLower b = hexDigit n := by
  have key : ∀ (k : Fin 256) (n : Fin 16), toDigit (UInt8.ofNat k) = some n.val ↔
      asciiLower (UInt8.ofNat k) = hexDigit n := by decide +kernel
  have hb := key ⟨b.toNat, b.toNat_lt⟩ ⟨n, hn⟩
  rwa [UInt8.ofNat_toNat] at hb

theorem hexChar_iff {b : UInt8} : HexChar b ↔ (toDigit b).isSome := by
  have key : ∀ k : Fin 256, HexChar (UInt8.ofNat k) ↔ (toDigit (UInt8.ofNat k)).isSome := by
    decide +kernel
  have hb := key ⟨b.toNat, b.toNat_lt⟩
  rwa [UInt8.ofNat_toNat] at hb

theorem fromDigits_one {b : UInt8} {n : Nat} : fromDigits 0 [b] = some n ↔ toDigit b = some n := by
  rw [fromDigits]
  cases hb : toDigit b with
  | none => simp
  | some d =>
    have := toDigit_lt hb
    simp [fromDigits, show ¬ 255 < d by omega]

theorem fromDigits_two {a b : UInt8} {n : Nat} : fromDigits 0 [a, b] = some n ↔
    ∃ c d, toDigit a = some c ∧ toDigit b = some d ∧ n = c * 16 + d := by
  rw [fromDigits]
  cases ha : toDigit a with
  | none => simp
  | some c =>
    have hc := toDigit_lt ha
    simp only [Nat.zero_mul, Nat.zero_add, show ¬ 255 < c by omega, if_false, fromDigits]
    cases hb : toDigit b with
    | none => simp
    | some d =>
      have hd := toDigit_lt hb
      simp [show ¬ 255 < c * 16 + d by omega, eq_comm]

theorem validUtf8_pair {a b : UInt8} (ha : DigestChar a) (hb : DigestChar b) :
    validUtf8 [a, b] = true := by
  simp [validUtf8, ha.ascii, hb.ascii]

/-- A pair is read as two digits, the first of which a plus sign can stand for. -/
theorem fromStrRadix16_pair {a b : UInt8} {n : Nat} : fromStrRadix16 [a, b] = some n ↔
    ∃ c d, toDigit (if a = 43 then 48 else a) = some c ∧ toDigit b = some d ∧
      n = c * 16 + d := by
  by_cases ha : a = 43
  · have h48 : toDigit 48 = some 0 := rfl
    rw [fromStrRadix16, if_pos ha, if_pos ha, fromDigits_one, h48]
    · simp
    · simp
  · rw [fromStrRadix16, if_neg ha, if_neg ha, fromDigits_two]
    simp

theorem hexByte_eq_ok_iff {a b x : UInt8} :
    hexByte [a, b] = .ok x ↔
      asciiLower (if a = 43 then 48 else a) = hexDigit (x.toNat / 16) ∧
        asciiLower b = hexDigit (x.toNat % 16) := by
  have hx := x.toNat_lt
  rw [← toDigit_eq_some_iff (by omega), ← toDigit_eq_some_iff (by omega)]
  constructor
  · intro h
    rw [hexByte] at h
    split at h
    · cases h
    · split at h
      · cases h
      · rename_i n hn
        obtain ⟨c, d, hc, hd, rfl⟩ := fromStrRadix16_pair.mp hn
        have hc' := toDigit_lt hc
        have hd' := toDigit_lt hd
        have hn : x.toNat = c * 16 + d := by
          rw [← Except.ok.inj h, UInt8.toNat_ofNat_of_lt' (by simp [UInt8.size]; omega)]
        rw [hc, hd, Option.some.injEq, Option.some.injEq]
        omega
  · rintro ⟨ha, hb⟩
    have hchar : DigestChar a := by
      by_cases h43 : a = 43
      · subst h43; decide
      · rw [if_neg h43] at ha
        exact digestChar_of_toDigit ha
    have hn : fromStrRadix16 [a, b] = some x.toNat :=
      fromStrRadix16_pair.mpr ⟨_, _, ha, hb, by omega⟩
    rw [hexByte, validUtf8_pair hchar (digestChar_of_toDigit hb), if_neg (by simp), hn]
    simp

theorem decodePairs_eq_ok_iff : ∀ {hex bytes : Bytes}, hex.length % 2 = 0 →
    (decodePairs hex = .ok bytes ↔ (readSigns hex).map asciiLower = encodeHex bytes)
  | [], bytes, _ => by
    cases bytes <;> simp [decodePairs, readSigns, encodeHex]
  | [_], _, h => by simp at h
  | a :: b :: rest, bytes, h => by
    have ih {bytes : Bytes} : decodePairs rest = .ok bytes ↔
        (readSigns rest).map asciiLower = encodeHex bytes :=
      decodePairs_eq_ok_iff (by simp at h; omega)
    have hdecode : decodePairs (a :: b :: rest) = .ok bytes ↔
        ∃ x xs, hexByte [a, b] = .ok x ∧ decodePairs rest = .ok xs ∧ x :: xs = bytes := by
      rw [decodePairs]
      cases hexByte [a, b] <;> cases decodePairs rest <;>
        simp [bind, Except.bind, pure, Except.pure]
    rw [hdecode]
    cases bytes with
    | nil => simp [readSigns, encodeHex]
    | cons y ys =>
      simp only [readSigns, encodeHex, List.map_cons, List.flatMap_cons, List.cons_append,
        List.nil_append, List.cons.injEq]
      constructor
      · rintro ⟨x, xs, hx, hxs, rfl, rfl⟩
        exact ⟨(hexByte_eq_ok_iff.mp hx).1, (hexByte_eq_ok_iff.mp hx).2, ih.mp hxs⟩
      · rintro ⟨ha, hb, hrest⟩
        exact ⟨y, ys, hexByte_eq_ok_iff.mpr ⟨ha, hb⟩, ih.mpr hrest, rfl, rfl⟩

theorem length_readSigns : ∀ s : Bytes, (readSigns s).length = s.length
  | [] => rfl
  | [_] => rfl
  | a :: b :: rest => by simp [readSigns, length_readSigns rest]

theorem length_encodeHex (bytes : Bytes) : (encodeHex bytes).length = 2 * bytes.length := by
  simp [encodeHex, List.length_flatMap, Nat.mul_comm]

theorem decodeHex_eq_ok_iff {hex bytes : Bytes} :
    decodeHex hex = .ok bytes ↔ (readSigns hex).map asciiLower = encodeHex bytes := by
  rw [decodeHex]
  split
  · rename_i hodd
    constructor
    · intro h; cases h
    · intro h
      have hlen := congrArg List.length h
      rw [List.length_map, length_readSigns, length_encodeHex] at hlen
      omega
  · rename_i heven
    exact decodePairs_eq_ok_iff (not_not.mp heven)

theorem algorithm_eq_some_iff {name : Bytes} {alg : Algorithm} :
    algorithm name = some alg ↔ name = algorithmName alg := by
  constructor
  · intro h
    rw [algorithm] at h
    split at h
    · cases h; assumption
    · split at h
      · cases h; assumption
      · split at h
        · cases h; assumption
        · cases h
  · rintro rfl
    cases alg <;> decide +kernel

theorem colon_notMem_algorithmName (alg : Algorithm) : 58 ∉ algorithmName alg := by
  cases alg <;> decide +kernel

/-! A text without a plus sign is read as it stands, and one with a plus sign is no hex. -/

theorem readSigns_eq_self : ∀ {s : Bytes}, 43 ∉ s → readSigns s = s
  | [], _ => rfl
  | [_], _ => rfl
  | a :: b :: rest, h => by
    simp only [List.mem_cons, not_or] at h
    rw [readSigns, if_neg (Ne.symm h.1), readSigns_eq_self h.2.2]

theorem hexChar_of_decodeHex : ∀ {hex bytes : Bytes},
    (readSigns hex).map asciiLower = encodeHex bytes → 43 ∉ hex → ∀ b ∈ hex, HexChar b := by
  intro hex bytes h h43 b hb
  rw [readSigns_eq_self h43] at h
  have hmem : asciiLower b ∈ encodeHex bytes := h ▸ List.mem_map_of_mem hb
  rw [encodeHex, List.mem_flatMap] at hmem
  obtain ⟨x, -, hx⟩ := hmem
  have hlt := x.toNat_lt
  rw [hexChar_iff]
  rcases List.mem_pair.mp hx with hx | hx
  · rw [(toDigit_eq_some_iff (by omega)).mpr hx]; rfl
  · rw [(toDigit_eq_some_iff (by omega)).mpr hx]; rfl

section Accepted

variable {hash : Algorithm → Bytes → Bytes} (hlen : ∀ alg b, (hash alg b).length = alg.outputLen)

include hlen in
theorem verifyBytes_eq_ok_iff_reads {bytes d : Bytes} :
    verifyBytes hash bytes d = .ok () ↔
      ∃ alg hex, d = algorithmName alg ++ 58 :: hex ∧
        (readSigns hex).map asciiLower = encodeHex (hash alg bytes) := by
  rw [verifyBytes_eq_ok_iff]
  constructor
  · rintro ⟨v, hv, hhash⟩
    obtain ⟨name, hex, alg, expected, hs, ha, hd, -, rfl⟩ := new_eq_ok_iff.mp hv
    obtain rfl := algorithm_eq_some_iff.mp ha
    refine ⟨alg, hex, splitOnce_eq_some hs, ?_⟩
    rw [hhash]
    exact decodeHex_eq_ok_iff.mp hd
  · rintro ⟨alg, hex, rfl, hread⟩
    exact ⟨⟨alg, hash alg bytes, []⟩, new_eq_ok_iff.mpr ⟨algorithmName alg, hex, alg, _,
      splitOnce_append (colon_notMem_algorithmName alg) hex, algorithm_eq_some_iff.mpr rfl,
      decodeHex_eq_ok_iff.mpr hread, hlen alg bytes, rfl⟩, rfl⟩

include hlen in
/-- The digests accepted for some bytes are those that spell the hash and those that spell
    it with plus signs. -/
theorem verifyBytes_spells_iff (bytes d : Bytes) :
    (verifyBytes hash bytes d = .ok () ↔ Spells hash bytes d) ↔
      ¬ SpellsWithSigns hash bytes d := by
  rw [verifyBytes_eq_ok_iff_reads hlen]
  constructor
  · rintro h ⟨alg, hex, rfl, h43, hread⟩
    obtain ⟨alg', hex', hd, hchars, -⟩ := h.mp ⟨alg, hex, rfl, hread⟩
    have hsplit := splitOnce_append (colon_notMem_algorithmName alg) hex
    rw [hd, splitOnce_append (colon_notMem_algorithmName alg')] at hsplit
    obtain rfl : hex' = hex := by simpa using (Prod.mk.inj (Option.some.inj hsplit)).2
    exact absurd (hchars 43 h43) (by decide)
  · intro h
    constructor
    · rintro ⟨alg, hex, rfl, hread⟩
      have h43 : 43 ∉ hex := fun h43 => h ⟨alg, hex, rfl, h43, hread⟩
      refine ⟨alg, hex, rfl, hexChar_of_decodeHex hread h43, ?_⟩
      rwa [readSigns_eq_self h43] at hread
    · rintro ⟨alg, hex, rfl, hchars, hlower⟩
      have h43 : 43 ∉ hex := fun h43 => absurd (hchars 43 h43) (by decide)
      refine ⟨alg, hex, rfl, ?_⟩
      rwa [readSigns_eq_self h43]

end Accepted

/-- The hash of every text is all zeros. -/
def zeroHash (alg : Algorithm) (_ : Bytes) : Bytes := List.replicate alg.outputLen 0

theorem verifyBytes_spells_iff_zeros :
    verifyBytes zeroHash [] (utf8 "sha256:" ++ List.replicate 64 48) = .ok () ↔
      Spells zeroHash [] (utf8 "sha256:" ++ List.replicate 64 48) := by
  refine (verifyBytes_spells_iff (by simp [zeroHash]) _ _).mpr ?_
  rintro ⟨alg, hex, hd, h43, -⟩
  have : (43 : UInt8) ∈ utf8 "sha256:" ++ List.replicate 64 48 := by
    rw [hd]; exact List.mem_append_right _ (List.mem_cons_of_mem _ h43)
  exact absurd this (by decide +kernel)

/-- Every other zero as a plus sign. -/
theorem verifyBytes_accepts_signs :
    ¬ ∀ (hash : Algorithm → Bytes → Bytes) (_ : ∀ alg b, (hash alg b).length = alg.outputLen)
      (bytes d : Bytes), verifyBytes hash bytes d = .ok () ↔ Spells hash bytes d := by
  intro h
  have hd : verifyBytes zeroHash []
      (utf8 "sha256:" ++ (List.replicate 32 [43, 48]).flatten) = .ok () := by decide +kernel
  obtain ⟨alg, hex, he, hchars, -⟩ := (h zeroHash (by simp [zeroHash]) _ _).mp hd
  have h43 : (43 : UInt8) ∈ algorithmName alg ++ 58 :: hex := by rw [← he]; decide +kernel
  rcases List.mem_append.mp h43 with h43 | h43
  · exact absurd h43 (by cases alg <;> decide +kernel)
  · rcases List.mem_cons.mp h43 with h43 | h43
    · cases h43
    · exact absurd (hchars 43 h43) (by decide)

end Pakstak
