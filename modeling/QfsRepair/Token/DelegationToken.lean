import QfsRepair.Machine.ByteOrder
import QfsRepair.Store.KeyedList
import Mathlib.Data.List.DropRight

/-!
# Delegation tokens

A token is a record of fixed width with a signature behind it, written most
significant byte first and in base 64.  Whoever has the key of a token can check
the signature, which is made over a subject and the record; the subject is not
part of the token, and how much of it is signed may depend on the flags in the
record.  The signature and the characters of base 64 are parameters: they come
from a library.
-/

namespace QfsRepair.Token

open Machine.ByteOrder List

abbrev Byte := BitVec 8

def kSignatureLength : ℕ := 20

abbrev Signature := { bytes : List Byte // bytes.length = kSignatureLength }

/-- What is used of the library: `HMAC` of an input under a key, or the text of
the error, and `EVP_EncodeBlock` and `EVP_DecodeBlock`. -/
structure OpenSsl where
  hmac : List Byte → List Byte → Except String Signature
  encodeBlock : List Byte → List Char
  decodeBlock : List Char → Option (List Byte)

structure DelegationToken where
  uid : BitVec 32
  seq : BitVec 32
  keyId : BitVec 64
  issuedTimeAndFlags : BitVec 64
  validForSec : BitVec 32
  signature : Signature

/-- What a token is signed for, given the token. -/
abbrev Subject := DelegationToken → List Byte

def kKeyLength : ℕ := 48

abbrev Key := { bytes : List Byte // bytes.length = kKeyLength }

structure CryptoKeys where
  currentKeyValidFlag : Bool
  currentKeyId : BitVec 64
  currentKey : Key
  keys : List (BitVec 64 × Key)

def CryptoKeys.find (cryptoKeys : CryptoKeys) (keyId : BitVec 64) : Option Key :=
  if cryptoKeys.currentKeyValidFlag && keyId == cryptoKeys.currentKeyId then
    some cryptoKeys.currentKey
  else Store.KeyedList.find keyId cryptoKeys.keys

namespace Base64

/-- How many of the last two characters are `=`. -/
def padding (text : List Char) : ℕ :=
  if 3 < text.length then (text.drop (text.length - 2)).count '=' else 0

/-- The bytes of a text without those that its padding stands for. -/
def decode (ssl : OpenSsl) (text : List Char) : Option (List Byte) :=
  (ssl.decodeBlock text).map fun bytes =>
    if 2 < bytes.length then bytes.take (bytes.length - padding text) else bytes

end Base64

namespace DelegationToken

def kIssuedTimeShift : ℕ := 16

def makeIssuedTimeAndFlags (issuedTime : BitVec 64) (flags : BitVec 16) : BitVec 64 :=
  issuedTime <<< kIssuedTimeShift ||| flags.setWidth 64

def getIssuedTime (token : DelegationToken) : BitVec 64 :=
  token.issuedTimeAndFlags.sshiftRight kIssuedTimeShift

def getFlags (token : DelegationToken) : BitVec 16 := token.issuedTimeAndFlags.setWidth 16

/-! ## The text of a token -/

def kTokenFiledsSize : ℕ := 4 + 4 + 8 + 8 + 4

def kTokenSize : ℕ := kTokenFiledsSize + kSignatureLength

/-- The fields of a token as bytes. -/
def serialize (token : DelegationToken) : List Byte :=
  bigEndian 4 token.uid.toNat ++ (bigEndian 4 token.seq.toNat ++ (bigEndian 8 token.keyId.toNat ++
    (bigEndian 8 token.issuedTimeAndFlags.toInt ++ bigEndian 4 token.validForSec.toNat)))

def toBase64 (ssl : OpenSsl) (token : DelegationToken) : List Char :=
  ssl.encodeBlock (token.serialize ++ token.signature.val)

/-- The most bytes that a text of so many characters stands for. -/
def getMaxDecodedLength (size : ℕ) : ℕ := (size + 3) / 4 * 3

def decodeBase64 (ssl : OpenSsl) (text : List Char) (outMaxLen : ℕ) : Option (List Byte) :=
  -- A zero byte in front is no white space, one at the end is.
  let trimmed := (text.dropWhile fun char => char ≤ ' ' && char ≠ Char.ofNat 0).rdropWhile
    fun char => char ≤ ' '
  if trimmed = [] ∨ outMaxLen < getMaxDecodedLength trimmed.length then none
  else Base64.decode ssl trimmed

/-- One field from the front of a buffer, and what is behind it. -/
def read (width size : ℕ) (buffer : List Byte) : BitVec width × List Byte :=
  (readWord width (buffer.take size), buffer.drop size)

/-- The buffer that a text decodes to, and the token in it. -/
def fromBase64 (ssl : OpenSsl) (text : List Char) : Option (List Byte × DelegationToken) :=
  (decodeBase64 ssl text kTokenSize).bind fun buffer =>
    if hlength : buffer.length = kTokenSize then
      let uid := read 32 4 buffer
      let seq := read 32 4 uid.2
      let keyId := read 64 8 seq.2
      let issuedTimeAndFlags := read 64 8 keyId.2
      let validForSec := read 32 4 issuedTimeAndFlags.2
      some (buffer, ⟨uid.1, seq.1, keyId.1, issuedTimeAndFlags.1, validForSec.1,
        ⟨validForSec.2, by simp [validForSec, issuedTimeAndFlags, keyId, seq, uid, read, hlength,
          kTokenSize, kTokenFiledsSize, kSignatureLength]⟩⟩)
    else none

/-! ## Signing -/

/-- The signature of what a buffer has in the place of the fields. -/
def sign (ssl : OpenSsl) (token : DelegationToken) (buffer key : List Byte) (subject : Subject) :
    Except String Signature :=
  match ssl.hmac key (subject token ++ buffer.take kTokenFiledsSize) with
  | .ok signature => .ok signature
  | .error text => .error ("HMAC failure: " ++ text)

/-- A token made without a key; its signature is not read before it is set. -/
def unsigned (uid seq : BitVec 32) (keyId issuedTime : BitVec 64) (flags : BitVec 16)
    (validForSec : BitVec 32) : DelegationToken :=
  ⟨uid, seq, keyId, makeIssuedTimeAndFlags issuedTime flags, validForSec,
    ⟨List.replicate kSignatureLength 0, length_replicate⟩⟩

/-- The text of a new token; a missing key is an empty one. -/
def writeToken (ssl : OpenSsl) (uid seq : BitVec 32) (keyId issuedTime : BitVec 64)
    (flags : BitVec 16) (validForSec : BitVec 32) (key : List Byte) (subject : Subject) :
    Option (List Char) :=
  if validForSec ≤ 0 ∨ key = [] then none
  else
    let token := unsigned uid seq keyId issuedTime flags validForSec
    match token.sign ssl token.serialize key subject with
    | .ok signature => some ({ token with signature := signature }.toBase64 ssl)
    | .error _ => none

def maxClockSkewSec (validForSec : BitVec 32) : BitVec 32 :=
  if BitVec.ofNat 32 (5 * 60) ≤ validForSec then BitVec.ofNat 32 (5 * 60) else validForSec

/-- The token of a text when it is accepted, without a session key. -/
def process (ssl : OpenSsl) (text : List Char) (timeNowSec : BitVec 64) (cryptoKeys : CryptoKeys)
    (subject : Subject) : Except String DelegationToken :=
  match fromBase64 ssl text with
  | none => .error "invalid format"
  | some (buffer, token) =>
    if token.validForSec ≤ 0 then .error "expired: 0 valid for time"
    else if (timeNowSec + (maxClockSkewSec token.validForSec).setWidth 64).slt
        token.getIssuedTime then
      .error "issue time is in the future"
    else if (token.getIssuedTime + token.validForSec.setWidth 64).slt timeNowSec then
      .error "exired"
    else
      match cryptoKeys.find token.keyId with
      | none => .error "no key found"
      | some key =>
        match token.sign ssl buffer key.val subject with
        | .error text => .error text
        | .ok signature =>
          if signature ≠ token.signature then .error "invalid signature" else .ok token

/-! ## Reading a token back -/

/-- What is assumed of base 64 for some bytes: decoding inverts encoding, three
bytes are four characters, and none of the characters is white space. -/
structure InvertsBase64 (ssl : OpenSsl) (bytes : List Byte) : Prop where
  decode_encodeBlock : Base64.decode ssl (ssl.encodeBlock bytes) = some bytes
  length_encodeBlock : (ssl.encodeBlock bytes).length = (bytes.length + 2) / 3 * 4
  printable : ∀ char ∈ ssl.encodeBlock bytes, ' ' < char

variable {ssl : OpenSsl} {token : DelegationToken}

@[simp]
theorem length_serialize (token : DelegationToken) :
    token.serialize.length = kTokenFiledsSize := by
  simp [serialize, kTokenFiledsSize]

theorem length_buffer (token : DelegationToken) :
    (token.serialize ++ token.signature.val).length = kTokenSize := by
  rw [length_append, length_serialize, token.signature.property, kTokenSize]

variable {text : List Char}

/-- A text without white space is not trimmed. -/
theorem decodeBase64_of_printable {outMaxLen : ℕ} (htext : text ≠ [])
    (hprintable : ∀ char ∈ text, ' ' < char) (hmax : getMaxDecodedLength text.length ≤ outMaxLen) :
    decodeBase64 ssl text outMaxLen = Base64.decode ssl text := by
  have hfront : text.dropWhile (fun char => char ≤ ' ' && char ≠ Char.ofNat 0) = text := by
    cases text with
    | nil => rfl
    | cons char text =>
      have hchar := hprintable char mem_cons_self
      simp [Char.not_le.mpr hchar]
  have hback : text.rdropWhile (fun char => char ≤ ' ') = text := by
    apply rdropWhile_eq_self_iff.mpr
    intro hne
    have hchar := hprintable _ (getLast_mem hne)
    simpa using hchar
  rw [decodeBase64, hfront, hback, if_neg]
  rintro (hnil | hlong)
  · exact htext hnil
  · exact absurd hlong (not_lt_of_ge hmax)

section

variable (hbase64 : InvertsBase64 ssl (token.serialize ++ token.signature.val))

include hbase64

theorem decodeBase64_toBase64 :
    decodeBase64 ssl (token.toBase64 ssl) kTokenSize =
      some (token.serialize ++ token.signature.val) := by
  have hlength := hbase64.length_encodeBlock
  rw [length_buffer] at hlength
  rw [toBase64, decodeBase64_of_printable _ hbase64.printable, hbase64.decode_encodeBlock]
  · rw [hlength]
    decide
  · intro hnil
    rw [hnil] at hlength
    exact absurd hlength (by decide)

omit hbase64 in
theorem read_bigEndian {width size : ℕ} (hwidth : width = 8 * size) (value : ℤ) (rest : List Byte) :
    read width size (bigEndian size value ++ rest) = (BitVec.ofInt width value, rest) := by
  have hlength := length_bigEndian size value
  rw [read, take_left' hlength, drop_left' hlength, readWord_bigEndian hwidth]

/-- The text of a token gives the token back. -/
theorem fromBase64_toBase64 :
    fromBase64 ssl (token.toBase64 ssl) =
      some (token.serialize ++ token.signature.val, token) := by
  rw [fromBase64, decodeBase64_toBase64 hbase64, Option.bind_some, dif_pos (length_buffer token)]
  simp only [serialize, append_assoc, read_bigEndian (show 32 = 8 * 4 from rfl),
    read_bigEndian (show 64 = 8 * 8 from rfl), BitVec.ofInt_natCast, BitVec.ofNat_toNat,
    BitVec.ofInt_toInt, BitVec.setWidth_eq]

end

/-! ## Times and flags -/

/-- An issue time that the record has room for beside the flags. -/
def FitsIssuedTime (issuedTime : BitVec 64) : Prop :=
  -2 ^ 47 ≤ issuedTime.toInt ∧ issuedTime.toInt < 2 ^ 47

@[simp]
theorem flags_makeIssuedTimeAndFlags (issuedTime : BitVec 64) (flags : BitVec 16) :
    (makeIssuedTimeAndFlags issuedTime flags).setWidth 16 = flags := by
  simp [makeIssuedTimeAndFlags, kIssuedTimeShift]

variable {issuedTime : BitVec 64}

theorem toInt_makeIssuedTimeAndFlags (hfits : FitsIssuedTime issuedTime) (flags : BitVec 16) :
    (makeIssuedTimeAndFlags issuedTime flags).toInt = issuedTime.toInt * 2 ^ 16 + flags.toNat := by
  obtain ⟨hlow, hhigh⟩ := hfits
  have hword : makeIssuedTimeAndFlags issuedTime flags =
      BitVec.ofInt 64 (issuedTime.toInt * 2 ^ 16 + flags.toNat) := by
    rw [← shiftIn_ofInt, BitVec.ofInt_toInt]
    rfl
  rw [hword, BitVec.toInt_ofInt, Int.bmod_eq_of_le (by omega) (by omega)]

theorem issuedTime_makeIssuedTimeAndFlags (hfits : FitsIssuedTime issuedTime) (flags : BitVec 16) :
    (makeIssuedTimeAndFlags issuedTime flags).sshiftRight kIssuedTimeShift = issuedTime := by
  apply BitVec.eq_of_toInt_eq
  rw [BitVec.toInt_sshiftRight, toInt_makeIssuedTimeAndFlags hfits, kIssuedTimeShift,
    Int.shiftRight_eq_div_pow]
  omega

/-- The time is within the validity of a token, up to the clock skew. -/
def InWindow (issuedTime timeNowSec : BitVec 64) (validForSec : BitVec 32) : Prop :=
  issuedTime.toInt ≤ timeNowSec.toInt + min (5 * 60) validForSec.toNat ∧
    timeNowSec.toInt ≤ issuedTime.toInt + validForSec.toNat

theorem toNat_maxClockSkewSec (validForSec : BitVec 32) :
    (maxClockSkewSec validForSec).toNat = min (5 * 60) validForSec.toNat := by
  rw [maxClockSkewSec]
  split
  · next hle =>
      exact (min_eq_left hle).symm
  · next hlt =>
      have hlt : validForSec.toNat < 5 * 60 := BitVec.lt_def.mp (BitVec.not_le.mp hlt)
      exact (min_eq_right hlt.le).symm

/-- A sum of a time and a duration, which may overflow. -/
theorem toInt_add_duration (time : BitVec 64) (duration : BitVec 32) :
    (time + duration.setWidth 64).toInt = time.toInt + duration.toNat ∨
      2 ^ 63 ≤ time.toInt + duration.toNat := by
  have hlow := BitVec.le_toInt time
  rcases lt_or_ge (time.toInt + duration.toNat) (2 ^ 63) with hlt | hge
  · left
    have hwide : (duration.setWidth 64).toInt = duration.toNat := by
      rw [BitVec.toInt_setWidth, Int.bmod_eq_of_le (by omega) (by omega)]
    rw [BitVec.toInt_add, hwide, Int.bmod_eq_of_le (by omega) (by omega)]
  · exact .inr hge

/-- The two comparisons.  At the end of the clock the first sum overflows, but
then every token has expired. -/
theorem inWindow_iff (hfits : FitsIssuedTime issuedTime) (timeNowSec : BitVec 64)
    (validForSec : BitVec 32) :
    (¬ (timeNowSec + (maxClockSkewSec validForSec).setWidth 64).slt issuedTime ∧
      ¬ (issuedTime + validForSec.setWidth 64).slt timeNowSec) ↔
    InWindow issuedTime timeNowSec validForSec := by
  obtain ⟨hlow, hhigh⟩ := hfits
  have hskew := toNat_maxClockSkewSec validForSec
  have hexpired : (issuedTime + validForSec.setWidth 64).toInt =
      issuedTime.toInt + validForSec.toNat := by
    rcases toInt_add_duration issuedTime validForSec with heq | hoverflow
    · exact heq
    · omega
  simp only [BitVec.slt_iff_toInt_lt, hexpired, InWindow, not_lt]
  rcases toInt_add_duration timeNowSec (maxClockSkewSec validForSec) with heq | hoverflow
  · rw [heq, hskew]
  · constructor
    · omega
    · omega

/-! ## Writing and checking -/

section Check

variable {buffer key : List Byte} {subject : Subject} {signature : Signature}

theorem sign_ok_iff :
    token.sign ssl buffer key subject = .ok signature ↔
      ssl.hmac key (subject token ++ buffer.take kTokenFiledsSize) = .ok signature := by
  rw [sign]
  cases ssl.hmac key (subject token ++ buffer.take kTokenFiledsSize) with
  | ok other => rfl
  | error text => simp

theorem writeToken_cases {uid seq : BitVec 32} {keyId : BitVec 64} {flags : BitVec 16}
    {validForSec : BitVec 32}
    (hwrite : writeToken ssl uid seq keyId issuedTime flags validForSec key subject = some text) :
    ¬ validForSec ≤ 0 ∧ ∃ signature,
      ssl.hmac key (subject (unsigned uid seq keyId issuedTime flags validForSec) ++
        (unsigned uid seq keyId issuedTime flags validForSec).serialize) = .ok signature ∧
      text = { unsigned uid seq keyId issuedTime flags validForSec with
        signature := signature }.toBase64 ssl := by
  rw [writeToken] at hwrite
  split at hwrite
  · cases hwrite
  · next hvalid =>
      dsimp only at hwrite
      split at hwrite
      · next signature hsign =>
          rw [sign_ok_iff] at hsign
          exact ⟨fun hzero => hvalid (.inl hzero), signature, hsign, (Option.some.inj hwrite).symm⟩
      · cases hwrite

/-- A token is accepted when it is valid, in time, and signed with the key that
its id names. -/
theorem process_toBase64 (hbase64 : InvertsBase64 ssl (token.serialize ++ token.signature.val))
    {cryptoKeys : CryptoKeys} {timeNowSec : BitVec 64} {accepted : DelegationToken} :
    process ssl (token.toBase64 ssl) timeNowSec cryptoKeys subject = .ok accepted ↔
      accepted = token ∧ ¬ token.validForSec ≤ 0 ∧
      (¬ (timeNowSec + (maxClockSkewSec token.validForSec).setWidth 64).slt token.getIssuedTime ∧
        ¬ (token.getIssuedTime + token.validForSec.setWidth 64).slt timeNowSec) ∧
      ∃ key, cryptoKeys.find token.keyId = some key ∧
        ssl.hmac key.val (subject token ++ token.serialize) = .ok token.signature := by
  have hsign : ∀ key signature,
      token.sign ssl (token.serialize ++ token.signature.val) key subject = .ok signature ↔
        ssl.hmac key (subject token ++ token.serialize) = .ok signature := by
    intro key signature
    rw [sign_ok_iff, take_left' (length_serialize token)]
  rw [process, fromBase64_toBase64 hbase64]
  constructor
  · intro hprocess
    dsimp only at hprocess
    split_ifs at hprocess with hvalid hfuture hexpired
    split at hprocess
    · cases hprocess
    · next key hfind =>
        split at hprocess
        · cases hprocess
        · next signature hsigned =>
            split_ifs at hprocess with hequal
            cases hprocess
            refine ⟨rfl, hvalid, ⟨hfuture, hexpired⟩, key, hfind, ?_⟩
            rw [← not_not.mp hequal]
            exact (hsign key.val signature).mp hsigned
  · rintro ⟨rfl, hvalid, ⟨hfuture, hexpired⟩, key, hfind, hhmac⟩
    dsimp only
    rw [if_neg hvalid, if_neg hfuture, if_neg hexpired, hfind]
    dsimp only
    rw [(hsign key.val accepted.signature).mpr hhmac]
    dsimp only
    rw [if_neg (not_not.mpr rfl)]

end Check

end DelegationToken

end QfsRepair.Token
