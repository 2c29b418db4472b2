import Keleusma.Wire.Layout

/-!
# The framing of a module

A framed module is a header of 64 bytes, an optional signature extension, the body and a trailer of
four bytes that makes the checksum of the whole come out at a fixed residue. This module has the
fields of the header, the signature extension and the errors of a load. A prefix that starts with
`#!` is skipped up to its newline.
-/

namespace Keleusma.Framing

open KeleusmaWire (Byte)

/-! ## Constants -/

/-- `KELE`. -/
def bytecodeMagic : List Byte := [0x4B, 0x45, 0x4C, 0x45]

/-- The version of the bytecode that the runtime reads. -/
def bytecodeVersion : ℕ := 2

/-- The length of the fixed header. -/
def wireFormatHeaderBytes : ℕ := 64

/-- The length of the footer, a CRC-32. -/
def wireFormatFooterBytes : ℕ := 4

/-- The length of the block that announces a signature. -/
def signatureMetadataBytes : ℕ := 8

/-- The length of the block that announces an encryption. -/
def encryptionMetadataBytes : ℕ := 88

/-- The header flag of a frame that is to be loaded with a signature only. -/
def flagRequiresSignature : Byte := 0x02

/-- The header flag of an encrypted frame. -/
def flagEncrypted : Byte := 0x04

/-- The only signature scheme. -/
def signatureSchemeEd25519 : ℕ := 1

/-- The length of a signature. -/
def ed25519SignatureBytes : ℕ := 64

/-- The length of the record of an instruction. -/
def opcodeRecordBytes : ℕ := 4

/-- The length of an entry of the operand pool. -/
def operandPoolEntryBytes : ℕ := 8

/-- The width of the runtime's words, as a power of two. -/
def runtimeWordBitsLog2 : ℕ := 6

/-- The width of the runtime's addresses, as a power of two. -/
def runtimeAddressBitsLog2 : ℕ := 6

/-- The width of the runtime's floats, as a power of two. -/
def runtimeFloatBitsLog2 : ℕ := 6

/-! ## Errors -/

/-- The reasons of a `Codec` error, with the data their texts show. -/
inductive CodecError
  | headerLengthBelowMinimum (headerLength : ℕ)
  | headerLengthBelowSignature (headerLength minimum : ℕ)
  | reservedNotZero
  | schemeReserved
  | schemeUnsupported (schemeId : ℕ)
  | signatureLength (got : ℕ)
  | headerLengthMismatch (headerLength expected : ℕ) (encrypted : Bool)
  | notSigned
  | flagWithoutExtension
  | extensionWithoutFlag
  | opcodeStreamLength (length : ℕ)
  | operandPoolLength (length : ℕ)
  | operandPoolParity
  | headerDisagrees
  | opcodeSpan (start stop streamLength : ℕ)
  /-- An error of the decoder of a section. -/
  | section (message : String)
  deriving DecidableEq, Repr

/-- Why a load fails. -/
inductive LoadError
  | badMagic
  | truncated
  | unsupportedVersion (got expected : ℕ)
  | wordSizeMismatch (got maxSupported : ℕ)
  | addressSizeMismatch (got maxSupported : ℕ)
  | floatSizeMismatch (got maxSupported : ℕ)
  | badChecksum
  | codec (e : CodecError)
  | invalidSignature
  deriving DecidableEq, Repr

/-! ## Reading -/

/-- The byte at a position that the caller has checked to be in range. -/
def byteAt (bytes : List Byte) (i : ℕ) : Byte := bytes.getD i 0

/-- The `n` bytes from `pos` on. -/
def slice (bytes : List Byte) (pos n : ℕ) : List Byte := (bytes.drop pos).take n

/-- The little-endian number in the `n` bytes from `pos` on. -/
def field (bytes : List Byte) (pos n : ℕ) : ℕ := LittleEndian.ofBytes (slice bytes pos n)

/-- Skip a first line that starts with `#!`. -/
def stripShebangPrefix (bytes : List Byte) : List Byte :=
  if bytes.take 2 = [0x23, 0x21] then
    match bytes.findIdx? (· == 0x0A) with
    | some newline => bytes.drop (newline + 1)
    | none => bytes
  else bytes

/-- The residue of a sequence of bytes followed by its own checksum. -/
def wireFormatCrc32Residue : BitVec 32 := 0x2144DF1C

/-- The reflected polynomial. -/
def crc32Poly : BitVec 32 := 0xEDB88320

/-- Shift out the lowest `n` bits. -/
def crc32Shift : ℕ → BitVec 32 → BitVec 32
  | 0, crc => crc
  | n + 1, crc => crc32Shift n (if crc &&& 1 ≠ 0 then (crc >>> 1) ^^^ crc32Poly else crc >>> 1)

/-- The CRC-32 continued from a state. -/
def crc32From (crc : BitVec 32) : List Byte → BitVec 32
  | [] => crc
  | b :: bytes => crc32From (crc32Shift 8 (crc ^^^ b.setWidth 32)) bytes

/-- The checksum. -/
def crc32 (bytes : List Byte) : BitVec 32 := crc32From 0xFFFFFFFF bytes ^^^ 0xFFFFFFFF

/-- The fields of the header. -/
structure FrameHeader where
  version : ℕ
  headerLength : ℕ
  totalLength : ℕ
  wordBitsLog2 : ℕ
  addrBitsLog2 : ℕ
  floatBitsLog2 : ℕ
  flags : Byte
  wcetCycles : ℕ
  wcmuBytes : ℕ
  sharedDataBytes : ℕ
  privateDataBytes : ℕ
  opcodeStreamOffset : ℕ
  opcodeStreamLength : ℕ
  operandPoolOffset : ℕ
  operandPoolLength : ℕ
  auxBodyOffset : ℕ
  auxBodyLength : ℕ
  auxArenaBytes : ℕ
  persistentCompositeBytes : ℕ

/-- Read the header. -/
def FrameHeader.read (bytes : List Byte) : FrameHeader where
  version := field bytes 4 2
  headerLength := field bytes 6 2
  totalLength := field bytes 8 4
  wordBitsLog2 := (byteAt bytes 12).toNat
  addrBitsLog2 := (byteAt bytes 13).toNat
  floatBitsLog2 := (byteAt bytes 14).toNat
  flags := byteAt bytes 15
  wcetCycles := field bytes 16 4
  wcmuBytes := field bytes 20 4
  sharedDataBytes := field bytes 24 4
  privateDataBytes := field bytes 28 4
  opcodeStreamOffset := field bytes 32 4
  opcodeStreamLength := field bytes 36 4
  operandPoolOffset := field bytes 40 4
  operandPoolLength := field bytes 44 4
  auxBodyOffset := field bytes 48 4
  auxBodyLength := field bytes 52 4
  auxArenaBytes := field bytes 56 4
  persistentCompositeBytes := field bytes 60 4

/-! ## The signature extension -/

/-- Where the signature lies. -/
structure SignatureInfo where
  schemeId : ℕ
  signatureOffset : ℕ
  signatureLength : ℕ
  deriving DecidableEq, Repr

/-- The header of a signed module, padded to a multiple of eight. -/
def signedHeaderLength (signatureLength : ℕ) : ℕ :=
  (wireFormatHeaderBytes + signatureMetadataBytes + signatureLength + 7) / 8 * 8

/-- The header length that a signature extension goes with. -/
def expectedHeaderLength (encrypted : Bool) (signatureLength : ℕ) : ℕ :=
  signedHeaderLength signatureLength + if encrypted then encryptionMetadataBytes else 0

/-- The signature extension of a header, when it has one. -/
def parseSignatureMetadata (bytes : List Byte) (headerLength : ℕ) :
    Except LoadError (Option SignatureInfo) :=
  let minimum := wireFormatHeaderBytes + signatureMetadataBytes
  let schemeId := (byteAt bytes 64).toNat
  let signatureLength := field bytes 66 2
  let encrypted := byteAt bytes 15 &&& flagEncrypted != 0
  let expected := expectedHeaderLength encrypted signatureLength
  if headerLength = wireFormatHeaderBytes then .ok none
  else if headerLength < minimum then
    .error (.codec (.headerLengthBelowSignature headerLength minimum))
  else if bytes.length < headerLength then .error .truncated
  else if byteAt bytes 65 ≠ 0 ∨ field bytes 68 4 ≠ 0 then .error (.codec .reservedNotZero)
  else if schemeId = 0 then .error (.codec .schemeReserved)
  else if schemeId ≠ signatureSchemeEd25519 then .error (.codec (.schemeUnsupported schemeId))
  else if signatureLength ≠ ed25519SignatureBytes then
    .error (.codec (.signatureLength signatureLength))
  else if headerLength ≠ expected then
    .error (.codec (.headerLengthMismatch headerLength expected encrypted))
  else .ok (some ⟨schemeId, minimum, signatureLength⟩)

/-- **A signature extension lies within a header of at least 136 bytes.** -/
theorem parseSignatureMetadata_some {bytes : List Byte} {headerLength : ℕ} {info : SignatureInfo}
    (h : parseSignatureMetadata bytes headerLength = .ok (some info)) :
    info = ⟨1, 72, 64⟩ ∧ 136 ≤ headerLength := by
  unfold parseSignatureMetadata at h
  simp only at h
  split at h
  · cases h
  split at h
  · cases h
  split at h
  · cases h
  split at h
  · cases h
  split at h
  · cases h
  split at h
  · cases h
  next hscheme =>
    split at h
    · cases h
    next hlength =>
      split at h
      · cases h
      next hheader =>
        rw [not_not] at hscheme hlength hheader
        rw [hscheme, hlength] at h
        cases h
        refine ⟨rfl, ?_⟩
        rw [hheader, hlength]
        exact Nat.le_add_right _ _

/-- Whether a framed module asks for a signature. -/
def headerRequiresSignature (bytes : List Byte) : Bool :=
  let bytes := stripShebangPrefix bytes
  15 < bytes.length && byteAt bytes 15 &&& flagRequiresSignature != 0

end Keleusma.Framing
