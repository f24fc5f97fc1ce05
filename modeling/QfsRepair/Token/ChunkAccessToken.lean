import QfsRepair.Token.DelegationToken

/-!
# Chunk access tokens

A chunk access token is a delegation token whose subject is a chunk and, when the
flags say so, a write or lease id.  The subject is written least significant byte
first, and its length depends on flags that are signed behind it.  The flags come
back from the text as they were issued, so two subjects that are compared are of
one length, and a token is accepted for the chunk and the id it was written for
and for no other.
-/

namespace QfsRepair.Token.ChunkAccessToken

open Machine.ByteOrder DelegationToken List

def kUsesWriteIdFlag : BitVec 16 := 0x0800

def kUsesLeaseIdFlag : BitVec 16 := 0x1000

def kSubjectLength : ℕ := 2 + 8 + 8

/-- All that a subject can be made of. -/
def subjectBuf (chunkId id : BitVec 64) : List Byte :=
  [BitVec.ofNat 8 'C'.toNat, BitVec.ofNat 8 'A'.toNat] ++
    (littleEndian 8 chunkId.toInt ++ littleEndian 8 id.toInt)

/-- The id is part of the subject only when the flags say so. -/
def subject (chunkId id : BitVec 64) : Subject := fun token =>
  (subjectBuf chunkId id).take
    (if token.getFlags &&& (kUsesWriteIdFlag ||| kUsesLeaseIdFlag) ≠ 0 then kSubjectLength
    else kSubjectLength - 8)

def writeToken (ssl : OpenSsl) (chunkId : BitVec 64) (uid seq : BitVec 32)
    (keyId issuedTime : BitVec 64) (flags : BitVec 16) (validForSec : BitVec 32)
    (key : List Byte) (id : BitVec 64) : Option (List Char) :=
  DelegationToken.writeToken ssl uid seq keyId issuedTime flags validForSec key
    (subject chunkId id)

/-- The check without a user id. -/
def process (ssl : OpenSsl) (chunkId : BitVec 64) (text : List Char) (timeNowSec : BitVec 64)
    (cryptoKeys : CryptoKeys) (id : BitVec 64) : Except String DelegationToken :=
  DelegationToken.process ssl text timeNowSec cryptoKeys (subject chunkId id)

/-! ## Subjects -/

@[simp]
theorem length_subjectBuf (chunkId id : BitVec 64) :
    (subjectBuf chunkId id).length = kSubjectLength := by
  simp [subjectBuf, kSubjectLength]

theorem length_subject (chunkId id otherChunkId otherId : BitVec 64) (token : DelegationToken) :
    (subject chunkId id token).length = (subject otherChunkId otherId token).length ∧
      (subject chunkId id token).length ≤ kSubjectLength := by
  simp only [subject, length_take, length_subjectBuf]
  exact ⟨trivial, min_le_right _ _⟩

/-- Subjects of one token are the same for the same chunk and, if it is used, the
same id. -/
theorem subject_eq_iff (token : DelegationToken) {chunkId id otherChunkId otherId : BitVec 64} :
    subject otherChunkId otherId token = subject chunkId id token ↔
      otherChunkId = chunkId ∧
        (token.getFlags &&& (kUsesWriteIdFlag ||| kUsesLeaseIdFlag) = 0 ∨ otherId = id) := by
  have hinj : ∀ {left right : BitVec 64},
      littleEndian 8 left.toInt = littleEndian 8 right.toInt ↔ left = right :=
    ⟨littleEndian_toInt_inj rfl, fun heq => heq ▸ rfl⟩
  by_cases hflags : token.getFlags &&& (kUsesWriteIdFlag ||| kUsesLeaseIdFlag) = 0
  · have htake : ∀ chunkId id, subject chunkId id token =
        [BitVec.ofNat 8 'C'.toNat, BitVec.ofNat 8 'A'.toNat] ++ littleEndian 8 chunkId.toInt := by
      intro chunkId id
      rw [subject, if_neg (not_not.mpr hflags), subjectBuf, ← append_assoc]
      exact take_left' (by simp [kSubjectLength])
    rw [htake, htake, append_cancel_left_eq, hinj]
    simp [hflags]
  · have htake : ∀ chunkId id, subject chunkId id token = subjectBuf chunkId id := by
      intro chunkId id
      rw [subject, if_pos hflags]
      exact take_of_length_le (length_subjectBuf chunkId id).le
    rw [htake, htake, subjectBuf, subjectBuf, append_cancel_left_eq]
    constructor
    · intro heq
      obtain ⟨hchunk, hid⟩ := append_inj heq (by simp)
      exact ⟨hinj.mp hchunk, .inr (hinj.mp hid)⟩
    · rintro ⟨rfl, hunused | rfl⟩
      · exact absurd hunused hflags
      · rfl

/-! ## What a token is accepted for -/

/-- Under a key, subjects of one length give different signatures in front of the
same fields. -/
def SubjectInjective (ssl : OpenSsl) (key : List Byte) : Prop :=
  ∀ (first second fields : List Byte) (signature : Signature),
    first.length = second.length → first.length ≤ kSubjectLength →
    ssl.hmac key (first ++ fields) = .ok signature →
    ssl.hmac key (second ++ fields) = .ok signature → first = second

/-- No input has the same signature under the one key as some input under the other. -/
def Separates (ssl : OpenSsl) (key other : List Byte) : Prop :=
  ∀ (input otherInput : List Byte) (signature : Signature),
    ssl.hmac key input = .ok signature → ssl.hmac other otherInput ≠ .ok signature

variable {ssl : OpenSsl} {chunkId keyId issuedTime id : BitVec 64} {uid seq validForSec : BitVec 32}
  {flags : BitVec 16} {key : List Byte} {cryptoKeys : CryptoKeys} {text : List Char}

/-- A token that was written is accepted exactly when its key is present, it is in
time, and it is presented for its chunk and, if the flags ask for one, its id. -/
theorem process_writeToken_iff
    (hbase64 : ∀ bytes, ssl.encodeBlock bytes = text → InvertsBase64 ssl bytes)
    (hinjective : SubjectInjective ssl key)
    (hseparates : ∀ other, cryptoKeys.find keyId = some other → other.val ≠ key →
      Separates ssl key other.val) (hfits : FitsIssuedTime issuedTime)
    (hwrite : writeToken ssl chunkId uid seq keyId issuedTime flags validForSec key id = some text)
    (otherChunkId otherId timeNowSec : BitVec 64) :
    ((∃ token, process ssl otherChunkId text timeNowSec cryptoKeys otherId = .ok token) ↔
      (∃ present, cryptoKeys.find keyId = some present ∧ present.val = key) ∧
        InWindow issuedTime timeNowSec validForSec ∧ otherChunkId = chunkId ∧
        (flags &&& (kUsesWriteIdFlag ||| kUsesLeaseIdFlag) = 0 ∨ otherId = id)) ∧
    ∀ token, process ssl otherChunkId text timeNowSec cryptoKeys otherId = .ok token →
      token.uid = uid ∧ token.seq = seq ∧ token.keyId = keyId ∧ token.getFlags = flags ∧
        token.getIssuedTime = issuedTime ∧ token.validForSec = validForSec := by
  obtain ⟨hvalid, signature, hsigned, rfl⟩ := writeToken_cases hwrite
  let issued := { DelegationToken.unsigned uid seq keyId issuedTime flags validForSec with
    signature := signature }
  have hissued : issued.getIssuedTime = issuedTime :=
    issuedTime_makeIssuedTimeAndFlags hfits flags
  have hflags : issued.getFlags = flags := flags_makeIssuedTimeAndFlags issuedTime flags
  have haccepted : ∀ token, process ssl otherChunkId (issued.toBase64 ssl) timeNowSec cryptoKeys
      otherId = .ok token ↔ token = issued ∧ InWindow issuedTime timeNowSec validForSec ∧
        ∃ present, cryptoKeys.find keyId = some present ∧
          ssl.hmac present.val (subject otherChunkId otherId issued ++ issued.serialize) =
            .ok signature := by
    intro token
    rw [process, process_toBase64 (hbase64 _ rfl), hissued, inWindow_iff hfits]
    constructor
    · rintro ⟨heq, -, hwindow, hkey⟩
      exact ⟨heq, hwindow, hkey⟩
    · rintro ⟨heq, hwindow, hkey⟩
      exact ⟨heq, hvalid, hwindow, hkey⟩
  have hbound := @subject_eq_iff issued chunkId id otherChunkId otherId
  rw [hflags] at hbound
  constructor
  · constructor
    · rintro ⟨token, hprocess⟩
      obtain ⟨-, hwindow, present, hfind, hhmac⟩ := (haccepted token).mp hprocess
      -- Another key under the same id does not make this signature.
      have hkey : present.val = key := by
        by_contra hne
        exact hseparates present hfind hne _ _ signature hsigned hhmac
      obtain ⟨hlength, hle⟩ := length_subject otherChunkId otherId chunkId id issued
      rw [hkey] at hhmac
      have hsubject := hinjective _ _ _ signature hlength hle hhmac hsigned
      exact ⟨⟨present, hfind, hkey⟩, hwindow, hbound.mp hsubject⟩
    · rintro ⟨⟨present, hfind, hkey⟩, hwindow, hsubject⟩
      refine ⟨issued, (haccepted issued).mpr ⟨rfl, hwindow, present, hfind, ?_⟩⟩
      rw [hkey, hbound.mpr hsubject]
      exact hsigned
  · intro token hprocess
    obtain ⟨rfl, -⟩ := (haccepted token).mp hprocess
    exact ⟨rfl, rfl, rfl, hflags, hissued, rfl⟩

/-! ## A token for writing a chunk -/

def sampleKey : Key := ⟨List.replicate kKeyLength 1, length_replicate⟩

def sampleKeys : CryptoKeys := ⟨true, 5, sampleKey, []⟩

/-- What is signed for writing chunk 7 with some write id. -/
def sampleInput (id : BitVec 64) : List Byte :=
  subjectBuf 7 id ++ (unsigned 3 1 5 1000 kUsesWriteIdFlag 600).serialize

/-- `HMAC` with SHA-1 of the input with write id 9. -/
def sampleSignature : Signature :=
  ⟨bigEndian 20 0x994a8ce9b79d29d6adaf3c245e97333972aae05f, length_bigEndian ..⟩

/-- `HMAC` with SHA-1 of the input with write id 10. -/
def otherSignature : Signature :=
  ⟨bigEndian 20 0x81889501c5e77e11f5592b5b36c5d2606c0c3db2, length_bigEndian ..⟩

def sampleBytes : List Byte :=
  (unsigned 3 1 5 1000 kUsesWriteIdFlag 600).serialize ++ sampleSignature.val

def sampleText : List Char :=
  "AAAAAwAAAAEAAAAAAAAABQAAAAAD6AgAAAACWJlKjOm3nSnWra88JF6XMzlyquBf".toList

/-- The library's values for the sample, and no others. -/
def sampleSsl : OpenSsl where
  hmac key input :=
    if key = sampleKey.val ∧ input = sampleInput 9 then .ok sampleSignature
    else if key = sampleKey.val ∧ input = sampleInput 10 then .ok otherSignature
    else .error "unknown"
  encodeBlock bytes := if bytes = sampleBytes then sampleText else []
  decodeBlock text := if text = sampleText then some sampleBytes else none

/-- A signature is given to one input only. -/
theorem sampleSsl_hmac_eq_ok {key input : List Byte} {signature : Signature}
    (hsigned : sampleSsl.hmac key input = .ok signature) :
    input = sampleInput (if signature = sampleSignature then 9 else 10) := by
  simp only [sampleSsl] at hsigned
  split_ifs at hsigned with hfirst hsecond <;> cases hsigned
  · rw [if_pos rfl, hfirst.2]
  · rw [if_neg (by decide), hsecond.2]

theorem sampleSsl_injective (key : List Byte) : SubjectInjective sampleSsl key := by
  intro first second fields signature _ _ hfirst hsecond
  have hinputs := (sampleSsl_hmac_eq_ok hfirst).trans (sampleSsl_hmac_eq_ok hsecond).symm
  exact append_cancel_right hinputs

theorem sampleSsl_invertsBase64 (bytes : List Byte)
    (htext : sampleSsl.encodeBlock bytes = sampleText) : InvertsBase64 sampleSsl bytes := by
  have hbytes : bytes = sampleBytes := by
    by_contra hne
    exact absurd ((if_neg hne).symm.trans htext) (by decide)
  subst hbytes
  refine ⟨by decide +kernel, by decide +kernel, fun char hchar => ?_⟩
  have hall : sampleText.all (' ' < ·) = true := by decide +kernel
  exact of_decide_eq_true (all_eq_true.mp hall char (htext ▸ hchar))

/-- A token for writing chunk 7 with write id 9 is accepted for them, and not for
write id 10. -/
theorem process_writeToken_sample :
    writeToken sampleSsl 7 3 1 5 1000 kUsesWriteIdFlag 600 sampleKey.val 9 = some sampleText ∧
      (∃ token, process sampleSsl 7 sampleText 1100 sampleKeys 9 = .ok token ∧ token.uid = 3 ∧
        token.getIssuedTime = 1000) ∧
      ¬ ∃ token, process sampleSsl 7 sampleText 1100 sampleKeys 10 = .ok token := by
  have hfind : sampleKeys.find 5 = some sampleKey := by decide
  have hseparates : ∀ other, sampleKeys.find 5 = some other → other.val ≠ sampleKey.val →
      Separates sampleSsl sampleKey.val other.val := by
    intro other hother hne
    exact absurd (congrArg Subtype.val (Option.some.inj hother)).symm hne
  have hfits : FitsIssuedTime 1000 := ⟨by decide, by decide⟩
  have hwrite : writeToken sampleSsl 7 3 1 5 1000 kUsesWriteIdFlag 600 sampleKey.val 9 =
      some sampleText := by decide +kernel
  obtain ⟨haccepted, hfields⟩ := process_writeToken_iff sampleSsl_invertsBase64
    (sampleSsl_injective _) hseparates hfits hwrite 7 9 1100
  obtain ⟨hrejected, -⟩ := process_writeToken_iff sampleSsl_invertsBase64
    (sampleSsl_injective _) hseparates hfits hwrite 7 10 1100
  obtain ⟨token, htoken⟩ := haccepted.mpr ⟨⟨sampleKey, hfind, rfl⟩, ⟨by decide, by decide⟩, rfl,
    .inr rfl⟩
  obtain ⟨huid, -, -, -, hissued, -⟩ := hfields token htoken
  refine ⟨hwrite, ⟨token, htoken, huid, hissued⟩, fun hexists => ?_⟩
  obtain ⟨-, -, -, hunused | hid⟩ := hrejected.mp hexists
  · exact absurd hunused (by decide)
  · exact absurd hid (by decide)

/-! ## The check with a user id -/

/-- The check with a user id, with calls that nest at most `depth` deep.  The call
inside passes the user id too, so it is a call of this overload again. -/
def processUser (ssl : OpenSsl) (chunkId : BitVec 64) (uid : BitVec 32) (text : List Char)
    (timeNowSec : BitVec 64) (cryptoKeys : CryptoKeys) (id : BitVec 64) :
    ℕ → Option (Except String DelegationToken)
  | 0 => none
  | depth + 1 =>
    (processUser ssl chunkId uid text timeNowSec cryptoKeys id depth).map fun result =>
      result.bind fun token => if uid = token.uid then .ok token else .error "user id mismatch"

/-- The check with a user id returns, and accepts what the check without one accepts
if the token is of that user. -/
def UserCheckCorrect (ssl : OpenSsl) (chunkId : BitVec 64) (uid : BitVec 32) (text : List Char)
    (timeNowSec : BitVec 64) (cryptoKeys : CryptoKeys) (id : BitVec 64) : Prop :=
  ∃ depth result, processUser ssl chunkId uid text timeNowSec cryptoKeys id depth = some result ∧
    ((∃ token, result = .ok token) ↔
      ∃ token, process ssl chunkId text timeNowSec cryptoKeys id = .ok token ∧ token.uid = uid)

section

variable (ssl : OpenSsl) (chunkId : BitVec 64) (uid : BitVec 32) (text : List Char)
variable (timeNowSec : BitVec 64) (cryptoKeys : CryptoKeys) (id : BitVec 64)

theorem processUser_eq_none (depth : ℕ) :
    processUser ssl chunkId uid text timeNowSec cryptoKeys id depth = none := by
  induction depth with
  | zero => rfl
  | succ depth ih => rw [processUser, ih, Option.map_none]

/-- However deep the calls may nest, none of them returns. -/
theorem not_userCheckCorrect :
    ¬ UserCheckCorrect ssl chunkId uid text timeNowSec cryptoKeys id := by
  rintro ⟨depth, result, hresult, -⟩
  rw [processUser_eq_none] at hresult
  exact nomatch hresult

end

/-- The check of an empty text for user 3 and chunk 7 does not return either. -/
theorem not_userCheckCorrect_empty : ¬ UserCheckCorrect sampleSsl 7 3 [] 1100 sampleKeys 9 := by
  rintro ⟨depth, result, hresult, -⟩
  rw [processUser_eq_none] at hresult
  exact nomatch hresult

end QfsRepair.Token.ChunkAccessToken
