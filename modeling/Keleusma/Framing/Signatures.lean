import Keleusma.Framing.Loading
import Keleusma.Wire.Build

/-!
# What a signature covers

Nothing the decoder reads lies outside the message of a verified signature: the header is covered,
and the sections lie after the signature extension and before the trailer. So two framed modules
with the same message decode to the same module, and with keys the signed loading path accepts a
module only under a signature that one of them verifies (`signature_coverage`).
-/

namespace Keleusma.Framing

open KeleusmaWire (Byte)

variable {C A O D K V : Type}

/-! ## Messages -/

@[simp] theorem length_zeroRange (start n : ℕ) (bytes : List Byte) :
    (zeroRange start n bytes).length = bytes.length := by
  simp only [zeroRange, List.length_append, List.length_take, List.length_replicate,
    List.length_drop]
  omega

theorem getElem?_zeroRange {start n i : ℕ} {bytes : List Byte} (h : i < start ∨ start + n ≤ i) :
    (zeroRange start n bytes)[i]? = bytes[i]? := by
  rw [zeroRange, List.append_assoc, List.getElem?_append, List.length_take]
  split
  · rw [List.getElem?_take, if_pos (by omega)]
  next hi =>
    rw [List.getElem?_append, List.length_replicate]
    split
    · omega
    · rw [List.getElem?_drop]
      by_cases hlength : i < bytes.length
      · congr 1
        omega
      · rw [List.getElem?_eq_none (by omega), List.getElem?_eq_none (by omega)]

@[simp] theorem length_signedMessage (info : SignatureInfo) (bytes : List Byte) :
    (signedMessage info bytes).length = bytes.length := by simp [signedMessage]

/-- The bytes outside the signature and the trailer are in the message. -/
theorem getElem?_signedMessage {info : SignatureInfo} {bytes : List Byte} {i : ℕ}
    (hsignature : i < info.signatureOffset ∨ info.signatureOffset + info.signatureLength ≤ i)
    (hfooter : i < bytes.length - wireFormatFooterBytes) :
    (signedMessage info bytes)[i]? = bytes[i]? := by
  rw [signedMessage, getElem?_zeroRange (.inl hfooter), getElem?_zeroRange hsignature]

/-- A slice that the message covers can be read off it. -/
theorem slice_signedMessage {info : SignatureInfo} {bytes : List Byte} {pos n : ℕ}
    (hsignature : pos + n ≤ info.signatureOffset ∨
      info.signatureOffset + info.signatureLength ≤ pos)
    (hfooter : pos + n ≤ bytes.length - wireFormatFooterBytes) :
    slice (signedMessage info bytes) pos n = slice bytes pos n := by
  apply List.ext_getElem?
  intro i
  rw [slice, slice, List.getElem?_take, List.getElem?_take]
  split
  · rw [List.getElem?_drop, List.getElem?_drop]
    exact getElem?_signedMessage (by omega) (by omega)
  · rfl

theorem slice_take {bytes : List Byte} {pos n total : ℕ} (h : pos + n ≤ total) :
    slice (bytes.take total) pos n = slice bytes pos n := by
  apply List.ext_getElem?
  intro i
  rw [slice, slice, List.getElem?_take, List.getElem?_take]
  split
  · rw [List.getElem?_drop, List.getElem?_drop, List.getElem?_take, if_pos (by omega)]
  · rfl

/-- The byte at a position is the slice of length one. -/
theorem byteAt_eq (bytes : List Byte) (i : ℕ) : byteAt bytes i = (slice bytes i 1).headD 0 := by
  have hhead : (bytes.drop i)[0]? = bytes[i]? := by rw [List.getElem?_drop, Nat.add_zero]
  rw [byteAt, slice, List.getD_eq_getElem?_getD, ← hhead]
  cases bytes.drop i <;> rfl

/-- The header is a function of the first 64 bytes. -/
theorem FrameHeader.read_congr {bytes bytes' : List Byte}
    (h : ∀ pos n, pos + n ≤ wireFormatHeaderBytes → slice bytes pos n = slice bytes' pos n) :
    FrameHeader.read bytes = FrameHeader.read bytes' := by
  have hfield : ∀ pos n, pos + n ≤ wireFormatHeaderBytes →
      field bytes pos n = field bytes' pos n := fun pos n hp => by rw [field, field, h pos n hp]
  have hbyte : ∀ i, i + 1 ≤ wireFormatHeaderBytes → byteAt bytes i = byteAt bytes' i :=
    fun i hi => by rw [byteAt_eq, byteAt_eq, h i 1 hi]
  simp only [wireFormatHeaderBytes] at hfield hbyte
  simp only [FrameHeader.read, FrameHeader.mk.injEq]
  refine ⟨hfield 4 2 (by omega), hfield 6 2 (by omega), hfield 8 4 (by omega), ?_, ?_, ?_,
    hbyte 15 (by omega), hfield 16 4 (by omega), hfield 20 4 (by omega), hfield 24 4 (by omega),
    hfield 28 4 (by omega), hfield 32 4 (by omega), hfield 36 4 (by omega), hfield 40 4 (by omega),
    hfield 44 4 (by omega), hfield 48 4 (by omega), hfield 52 4 (by omega), hfield 56 4 (by omega),
    hfield 60 4 (by omega)⟩
  · rw [hbyte 12 (by omega)]
  · rw [hbyte 13 (by omega)]
  · rw [hbyte 14 (by omega)]

/-! ## What the two readers establish -/

/-- The frame of a module: the bytes after the first line, cut to the declared length. -/
def frame (bytes : List Byte) : List Byte :=
  (stripShebangPrefix bytes).take (FrameHeader.read (stripShebangPrefix bytes)).totalLength

/-- The signature extension of a signed module. -/
def ed25519Info : SignatureInfo := ⟨1, 72, 64⟩

/-- The verifier has found a signature extension, inside the frame. -/
structure Signed (bytes : List Byte) : Prop where
  extension : 136 ≤ (FrameHeader.read (stripShebangPrefix bytes)).headerLength
  header : (FrameHeader.read (stripShebangPrefix bytes)).headerLength + wireFormatFooterBytes ≤
    (frame bytes).length
  total : (frame bytes).length = (FrameHeader.read (stripShebangPrefix bytes)).totalLength

theorem messageAndSignature_ok {bytes message signature : List Byte}
    (h : messageAndSignature bytes = .ok (message, signature)) :
    Signed bytes ∧ message = signedMessage ed25519Info (frame bytes) ∧
      signature = slice (frame bytes) 72 64 ∧
      parseSignatureMetadata (frame bytes)
        (FrameHeader.read (stripShebangPrefix bytes)).headerLength = .ok (some ed25519Info) := by
  unfold messageAndSignature at h
  simp only at h
  split at h
  · cases h
  split at h
  · cases h
  split at h
  · cases h
  next htotal =>
    change (parseSignatureMetadata (frame bytes)
      (FrameHeader.read (stripShebangPrefix bytes)).headerLength >>= _) = _ at h
    cases hinfo : parseSignatureMetadata (frame bytes)
        (FrameHeader.read (stripShebangPrefix bytes)).headerLength with
    | error e =>
      rw [hinfo] at h
      cases h
    | ok info =>
      rw [hinfo] at h
      cases info with
      | none => cases h
      | some info =>
        obtain ⟨rfl, hheader⟩ := parseSignatureMetadata_some hinfo
        cases h
        have hlength : (frame bytes).length =
            (FrameHeader.read (stripShebangPrefix bytes)).totalLength := by
          rw [frame, List.length_take]
          exact Nat.min_eq_left (by simp only [FrameHeader.read]; omega)
        refine ⟨⟨hheader, ?_, hlength⟩, rfl, rfl, rfl⟩
        rw [hlength]
        simp only [FrameHeader.read]
        omega

/-- What the decoder reads: the header, and three sections of the body. -/
theorem moduleFromWireBytes_ok {dec : Decoders C A O D} {bytes : List Byte}
    {m : DecodedModule C A O D} (h : moduleFromWireBytes dec bytes = .ok m) :
    let header := FrameHeader.read (stripShebangPrefix bytes)
    decodeSections dec header (.read (frame bytes) header) = .ok m ∧
      inBody header header.opcodeStreamOffset header.opcodeStreamLength ∧
      inBody header header.operandPoolOffset header.operandPoolLength ∧
      inBody header header.auxBodyOffset header.auxBodyLength := by
  unfold moduleFromWireBytes at h
  simp only at h
  split at h
  · cases h
  split at h
  · cases h
  split at h
  · cases h
  split at h
  · cases h
  split at h
  · cases h
  split at h
  · cases h
  change moduleFromFrame dec _ (frame bytes) = _ at h
  unfold moduleFromFrame at h
  split at h
  · cases h
  cases hinfo : parseSignatureMetadata (frame bytes)
      (FrameHeader.read (stripShebangPrefix bytes)).headerLength with
  | error e =>
    rw [hinfo] at h
    cases h
  | ok info =>
    rw [hinfo] at h
    simp only [Bind.bind, Except.bind] at h
    split at h
    · cases h
    split at h
    · cases h
    next hsections =>
      split at h
      · cases h
      split at h
      · cases h
      simp only [Bool.or_eq_true, Bool.not_eq_true', not_or, Bool.not_eq_false] at hsections
      exact ⟨h, hsections.1.1, hsections.1.2, hsections.2⟩

/-! ## Coverage -/

section

variable {a b : List Byte} (ha : Signed a) (hb : Signed b)
  (hmessage : signedMessage ed25519Info (frame a) = signedMessage ed25519Info (frame b))

include hmessage in
/-- Frames with one message agree on what it covers. -/
theorem slice_frame_eq {pos n : ℕ} (hsignature : pos + n ≤ 72 ∨ 136 ≤ pos)
    (hfooter : pos + n ≤ (frame a).length - wireFormatFooterBytes) :
    slice (frame a) pos n = slice (frame b) pos n := by
  have hlength : (frame a).length = (frame b).length := by
    have := congrArg List.length hmessage
    simpa using this
  have hslice : slice (signedMessage ed25519Info (frame a)) pos n = slice (frame a) pos n :=
    slice_signedMessage hsignature hfooter
  rw [← hslice, hmessage]
  exact slice_signedMessage hsignature (hlength ▸ hfooter)

include ha in
/-- A signed frame is long enough for the header to be read off it. -/
theorem Signed.slice_header {pos n : ℕ} (h : pos + n ≤ wireFormatHeaderBytes) :
    slice (stripShebangPrefix a) pos n = slice (frame a) pos n := by
  have hextension := ha.extension
  have hheader := ha.header
  have htotal := ha.total
  simp only [wireFormatHeaderBytes, wireFormatFooterBytes] at h hheader
  exact (slice_take (by omega)).symm

include ha hb hmessage in
/-- Frames with one message have one header. -/
theorem header_eq : FrameHeader.read (stripShebangPrefix a) =
    FrameHeader.read (stripShebangPrefix b) := by
  refine FrameHeader.read_congr fun pos n h => ?_
  have hextension := ha.extension
  have hheader := ha.header
  rw [ha.slice_header h, hb.slice_header h]
  simp only [wireFormatHeaderBytes, wireFormatFooterBytes] at h hheader
  exact slice_frame_eq hmessage (by omega) (by simp only [wireFormatFooterBytes]; omega)

include ha hmessage in
/-- Frames with one message agree on every section of the body. -/
theorem section_eq {offset length : ℕ}
    (h : inBody (FrameHeader.read (stripShebangPrefix a)) offset length) :
    slice (frame a) offset length = slice (frame b) offset length := by
  simp only [inBody, Bool.and_eq_true, decide_eq_true_eq] at h
  obtain ⟨hstart, hstop⟩ := h
  have hextension := ha.extension
  have htotal := ha.total
  exact slice_frame_eq hmessage (.inr (by omega)) (by omega)

end

/-- The decoder is a function of the message. -/
theorem decoded_eq {dec : Decoders C A O D} {a b : List Byte} {m m' : DecodedModule C A O D}
    (ha : Signed a) (hb : Signed b)
    (hmessage : signedMessage ed25519Info (frame a) = signedMessage ed25519Info (frame b))
    (hm : moduleFromWireBytes dec a = .ok m) (hm' : moduleFromWireBytes dec b = .ok m') :
    m = m' := by
  obtain ⟨hdecode, hopcodes, hpool, haux⟩ := moduleFromWireBytes_ok hm
  obtain ⟨hdecode', -⟩ := moduleFromWireBytes_ok hm'
  rw [← header_eq ha hb hmessage] at hdecode'
  have hsections : Sections.read (frame a) (FrameHeader.read (stripShebangPrefix a)) =
      Sections.read (frame b) (FrameHeader.read (stripShebangPrefix a)) := by
    rw [Sections.read, Sections.read, section_eq ha hmessage hopcodes,
      section_eq ha hmessage hpool, section_eq ha hmessage haux]
  rw [hsections] at hdecode
  exact Except.ok.inj (hdecode.symm.trans hdecode')

/-- A module whose signature verifies carries one. -/
theorem verifyModuleSignature_ok {verifyStrict : K → List Byte → List Byte → Bool}
    {bytes : List Byte} {keys : List K} (h : verifyModuleSignature verifyStrict bytes keys = .ok ()) :
    ∃ message signature, messageAndSignature bytes = .ok (message, signature) ∧
      ∃ key ∈ keys, verifyStrict key message signature := by
  unfold verifyModuleSignature at h
  cases hms : messageAndSignature bytes with
  | error e =>
    rw [hms] at h
    cases h
  | ok r =>
    obtain ⟨message, signature⟩ := r
    rw [hms] at h
    change (if _ then _ else _) = _ at h
    split at h
    next hkeys =>
      obtain ⟨key, hkey, hverify⟩ := List.any_eq_true.mp hkeys
      exact ⟨message, signature, rfl, key, hkey, hverify⟩
    · cases h

/-- The message that the verifier checks the signature of. -/
def verifiedMessage (bytes : List Byte) : Except LoadError (List Byte) :=
  (messageAndSignature bytes).map Prod.fst

/-- The header asks for a signature and carries one. -/
def CarriesSignature (bytes : List Byte) : Prop :=
  headerRequiresSignature bytes ∧ ∃ info, parseSignatureMetadata (frame bytes)
    (FrameHeader.read (stripShebangPrefix bytes)).headerLength = .ok (some info)

/-- **A signature covers what the decoder reads.** Two byte strings whose signatures verify over
one message decode to one module; and when the host has keys, a byte string that the signed
loading path accepts carries a signature that verifies. -/
theorem signature_coverage (verifyStrict : K → List Byte → List Byte → Bool)
    (dec : Decoders C A O D) (construct : DecodedModule C A O D → Except LoadError V) :
    (∀ (a b : List Byte) (keys keys' : List K) (m m' : DecodedModule C A O D),
      verifyModuleSignature verifyStrict a keys = .ok () →
      verifyModuleSignature verifyStrict b keys' = .ok () →
      verifiedMessage a = verifiedMessage b →
      moduleFromWireBytes dec a = .ok m → moduleFromWireBytes dec b = .ok m' → m = m') ∧
    ∀ (bytes : List Byte) (keys : List K) (v : V), keys ≠ [] →
      loadSignedBytes verifyStrict dec construct bytes keys = .ok v →
      CarriesSignature bytes ∧ verifyModuleSignature verifyStrict bytes keys = .ok () := by
  constructor
  · intro a b keys keys' m m' ha hb hmessage hm hm'
    obtain ⟨message, signature, hms, -⟩ := verifyModuleSignature_ok ha
    obtain ⟨message', signature', hms', -⟩ := verifyModuleSignature_ok hb
    rw [verifiedMessage, verifiedMessage, hms, hms'] at hmessage
    obtain rfl := Except.ok.inj hmessage
    obtain ⟨hsigned, hframe, -⟩ := messageAndSignature_ok hms
    obtain ⟨hsigned', hframe', -⟩ := messageAndSignature_ok hms'
    exact decoded_eq hsigned hsigned' (hframe.symm.trans hframe') hm hm'
  · intro bytes keys v hkeys hload
    unfold loadSignedBytes at hload
    split at hload
    next hflag =>
      cases hverify : verifyModuleSignature verifyStrict bytes keys with
      | error e =>
        rw [hverify] at hload
        cases hload
      | ok u =>
        obtain ⟨message, signature, hms, -⟩ := verifyModuleSignature_ok hverify
        obtain ⟨-, -, -, hinfo⟩ := messageAndSignature_ok hms
        exact ⟨⟨hflag, _, hinfo⟩, rfl⟩
    · rw [if_neg (by simpa using hkeys)] at hload
      cases hload

/-! ## Two signatures of one module -/

/-- The header record of a signed module without an entry point. -/
def emptyHeaderRecord : List Byte :=
  [0xFF, 0xFF, 0xFF, 0xFF, 6, 6, 6, 2] ++ List.replicate 20 0 ++ [0xE1, 0x63, 0x27, 0x43]

/-- The auxiliary body of a module without chunks: the header record in its region, and the tables
every module has, all of them empty. -/
def emptyAuxBody : List Byte :=
  let kinds : List (BitVec 16) := [0x16, 0x18, 0x19, 0x20, 0x23, 0x21, 0x15, 0x10, 0x11]
  let builder := kinds.foldl (fun b kind => (b.region kind 0).2) KeleusmaWire.WireBuilder.new
  (((builder.push 5 emptyHeaderRecord).2.finish 64).toOption).getD []

/-- A signed module of the empty auxiliary body. -/
def signedEmpty (signature : List Byte) : List Byte :=
  let aux := LittleEndian.toBytes 4 emptyAuxBody.length
  let start : List Byte := [136, 0, 0, 0]
  let frame := bytecodeMagic ++ [2, 0, 136, 0] ++
    LittleEndian.toBytes 4 (136 + emptyAuxBody.length + 4) ++ [6, 6, 6, 2] ++
    List.replicate 16 0 ++ start ++ [0, 0, 0, 0] ++ start ++ [0, 0, 0, 0] ++ start ++ aux ++
    List.replicate 8 0 ++ [1, 0, 64, 0, 0, 0, 0, 0] ++ signature ++ emptyAuxBody
  frame ++ LittleEndian.toBytes 4 (crc32 frame).toNat

/-- The decoders, on the sections of `signedEmpty`. -/
def emptyDecoders : Decoders Unit Unit Unit Unit where
  auxBody bytes :=
    if bytes = emptyAuxBody then .ok ⟨[], 6, 6, 6, 2, 0, 0, 0, 0, ()⟩
    else .error (.codec (.section "aux body decode failed"))
  op _ _ := .error (.codec (.section "opcode decode failed"))
  debugPool _ := .error (.codec (.section "debug pool decode failed"))

/-- A signature scheme in which a key signs with copies of itself. -/
def repeatedKey (key : Byte) (_ signature : List Byte) : Bool :=
  signature == List.replicate ed25519SignatureBytes key

/-- A signed module, and the same module under another signature, after a shebang line and before
other data. -/
def firstSigned : List Byte := signedEmpty (List.replicate 64 1)

def secondSigned : List Byte :=
  [0x23, 0x21, 0x6B, 0x0A] ++ signedEmpty (List.replicate 64 2) ++ [7, 7, 7]

theorem exists_ok {ε α : Type} {r : Except ε α} (h : r.toOption.isSome = true) :
    ∃ a, r = .ok a := by
  cases r with
  | error e => cases h
  | ok a => exact ⟨a, rfl⟩

set_option maxRecDepth 8000 in
theorem firstSigned_accepted :
    (moduleFromWireBytes emptyDecoders firstSigned).toOption.isSome = true ∧
      verifyModuleSignature repeatedKey firstSigned [1, 2] = .ok () := by
  decide +kernel

set_option maxRecDepth 8000 in
theorem secondSigned_accepted :
    (moduleFromWireBytes emptyDecoders secondSigned).toOption.isSome = true ∧
      verifyModuleSignature repeatedKey secondSigned [2] = .ok () := by
  decide +kernel

/-- The message does not depend on the signature. -/
def emptyMessage : List Byte := signedMessage ed25519Info (signedEmpty (List.replicate 64 0))

set_option maxRecDepth 8000 in
theorem firstSigned_message : verifiedMessage firstSigned = .ok emptyMessage := by
  have hframe : verifiedMessage firstSigned = .ok (signedMessage ed25519Info firstSigned) := by
    decide +kernel
  have hmessage : signedMessage ed25519Info firstSigned = emptyMessage := by decide +kernel
  rw [hframe, hmessage]

set_option maxRecDepth 8000 in
theorem secondSigned_message : verifiedMessage secondSigned = .ok emptyMessage := by
  have hframe : verifiedMessage secondSigned =
      .ok (signedMessage ed25519Info (signedEmpty (List.replicate 64 2))) := by decide +kernel
  have hmessage : signedMessage ed25519Info (signedEmpty (List.replicate 64 2)) =
      emptyMessage := by decide +kernel
  rw [hframe, hmessage]

/-- The two signatures are over one message, and the two byte strings decode to one module. -/
theorem signedPair_decodes_alike : ∃ m, moduleFromWireBytes emptyDecoders firstSigned = .ok m ∧
    moduleFromWireBytes emptyDecoders secondSigned = .ok m := by
  obtain ⟨hdecodes, hverify⟩ := firstSigned_accepted
  obtain ⟨hdecodes', hverify'⟩ := secondSigned_accepted
  obtain ⟨m, hm⟩ := exists_ok hdecodes
  obtain ⟨m', hm'⟩ := exists_ok hdecodes'
  obtain rfl := (signature_coverage repeatedKey emptyDecoders Except.ok).1 _ _ _ _ m m' hverify
    hverify' (firstSigned_message.trans secondSigned_message.symm) hm hm'
  exact ⟨m, hm, hm'⟩

end Keleusma.Framing
