import Keleusma.Framing.Header

/-!
# Loading a framed module

`moduleFromWireBytes` checks the framing and decodes the three sections of the body: the opcode
stream, the operand pool and the auxiliary body. `verifyModuleSignature` locates the framing on its
own and checks a signature over the framed buffer with the signature itself and the trailer zeroed;
`loadSignedBytes` demands such a signature whenever the host supplies keys.

The decoders of one opcode record, of the auxiliary body and of a debug pool are parameters
(`Decoders`): each is a function of the bytes it is given. The signature scheme is a predicate on a
key, a message and a signature.
-/

namespace Keleusma.Framing

open KeleusmaWire (Byte)

/-! ## Decoders -/

/-- The metadata of a chunk in the auxiliary body; `meta` is everything but the opcodes and the
debug pool. -/
structure WireChunk (C : Type) where
  opByteOffset : ℕ
  opRecordCount : ℕ
  debugPoolBytes : Option (List Byte)
  «meta» : C

/-- The auxiliary body; `tables` are its tables other than the chunks. -/
structure WireAuxBody (C A : Type) where
  chunks : List (WireChunk C)
  wordBitsLog2 : ℕ
  addrBitsLog2 : ℕ
  floatBitsLog2 : ℕ
  flags : Byte
  wcetCycles : ℕ
  wcmuBytes : ℕ
  sharedDataBytes : ℕ
  privateDataBytes : ℕ
  tables : A

/-- The decoders of the sections. -/
structure Decoders (C A O D : Type) where
  auxBody : List Byte → Except LoadError (WireAuxBody C A)
  /-- Decode an opcode record, given the operand pool. -/
  op : List Byte → List (List Byte) → Except LoadError O
  debugPool : List Byte → Except LoadError D

/-- A decoded chunk. -/
structure DecodedChunk (C O D : Type) where
  «meta» : C
  ops : List O
  debugPool : Option D

/-- A decoded module: the auxiliary body with the chunks' instructions, and the two fields that
only the header carries. -/
structure DecodedModule (C A O D : Type) where
  chunks : List (DecodedChunk C O D)
  aux : WireAuxBody C A
  auxArenaBytes : ℕ
  persistentCompositeBytes : ℕ

variable {C A O D : Type}

/-! ## Sections -/

/-- The bytes in pieces of `n`. -/
def pieces (n : ℕ) (bytes : List Byte) : List (List Byte) :=
  (List.range (bytes.length / n)).map fun i => slice bytes (n * i) n

/-- The parity byte of an operand pool entry is the exclusive or of the others. -/
def checkEntryParity (entry : List Byte) : Bool :=
  (entry.eraseIdx 1).foldl (· ^^^ ·) 0 == byteAt entry 1

/-- The entries of the operand pool. -/
def decodeOperandPool (bytes : List Byte) : Except LoadError (List (List Byte)) :=
  (pieces operandPoolEntryBytes bytes).mapM fun entry =>
    if checkEntryParity entry then .ok entry else .error (.codec .operandPoolParity)

/-- The body sections that a header describes. -/
structure Sections where
  opcodeStream : List Byte
  operandPool : List Byte
  auxBody : List Byte
  deriving DecidableEq

/-- Cut the frame into its sections, as the header places them. -/
def Sections.read (bytes : List Byte) (h : FrameHeader) : Sections where
  opcodeStream := slice bytes h.opcodeStreamOffset h.opcodeStreamLength
  operandPool := slice bytes h.operandPoolOffset h.operandPoolLength
  auxBody := slice bytes h.auxBodyOffset h.auxBodyLength

/-- The header mirrors fields of the auxiliary body. -/
def headerAgrees (h : FrameHeader) (aux : WireAuxBody C A) : Bool :=
  aux.wordBitsLog2 == h.wordBitsLog2 && aux.addrBitsLog2 == h.addrBitsLog2 &&
    aux.floatBitsLog2 == h.floatBitsLog2 && aux.flags == h.flags &&
    aux.wcetCycles == h.wcetCycles && aux.wcmuBytes == h.wcmuBytes &&
    aux.sharedDataBytes == h.sharedDataBytes && aux.privateDataBytes == h.privateDataBytes

section

variable (dec : Decoders C A O D)

/-- Decode the instructions of a chunk. -/
def decodeChunk (opcodeStream : List Byte) (pool : List (List Byte)) (wc : WireChunk C) :
    Except LoadError (DecodedChunk C O D) :=
  let byteSpan := wc.opRecordCount * opcodeRecordBytes
  let stop := wc.opByteOffset + byteSpan
  if opcodeStream.length < stop then
    .error (.codec (.opcodeSpan wc.opByteOffset stop opcodeStream.length))
  else do
    let ops ← (pieces opcodeRecordBytes (slice opcodeStream wc.opByteOffset byteSpan)).mapM
      fun record => dec.op record pool
    let debugPool ← wc.debugPoolBytes.mapM dec.debugPool
    return ⟨wc.meta, ops, debugPool⟩

/-- Decode the sections of a body. -/
def decodeSections (h : FrameHeader) (s : Sections) : Except LoadError (DecodedModule C A O D) := do
  let pool ← decodeOperandPool s.operandPool
  if runtimeWordBitsLog2 < h.wordBitsLog2 then
    .error (.wordSizeMismatch h.wordBitsLog2 runtimeWordBitsLog2)
  else if runtimeAddressBitsLog2 < h.addrBitsLog2 then
    .error (.addressSizeMismatch h.addrBitsLog2 runtimeAddressBitsLog2)
  else if runtimeFloatBitsLog2 < h.floatBitsLog2 then
    .error (.floatSizeMismatch h.floatBitsLog2 runtimeFloatBitsLog2)
  else do
    let aux ← dec.auxBody s.auxBody
    if !headerAgrees h aux then .error (.codec .headerDisagrees)
    else do
      let chunks ← aux.chunks.mapM (decodeChunk dec s.opcodeStream pool)
      return ⟨chunks, aux, h.auxArenaBytes, h.persistentCompositeBytes⟩

end

/-! ## The framing -/

/-- The extension and the flag that announces it go together. -/
def checkSignatureFlag (flags : Byte) : Option SignatureInfo → Except LoadError Unit
  | none =>
    if flags &&& flagRequiresSignature ≠ 0 then .error (.codec .flagWithoutExtension) else .ok ()
  | some _ =>
    if flags &&& flagRequiresSignature ≠ 0 then .ok () else .error (.codec .extensionWithoutFlag)

/-- A section lies after the header and before the trailer. -/
def inBody (h : FrameHeader) (offset length : ℕ) : Bool :=
  h.headerLength ≤ offset && offset + length ≤ h.totalLength - wireFormatFooterBytes

/-- Check a frame that has been cut to its declared length, and decode its body. -/
def moduleFromFrame (dec : Decoders C A O D) (h : FrameHeader) (bytes : List Byte) :
    Except LoadError (DecodedModule C A O D) :=
  if crc32 bytes ≠ wireFormatCrc32Residue then .error .badChecksum
  else do
    let info ← parseSignatureMetadata bytes h.headerLength
    checkSignatureFlag h.flags info
    if !inBody h h.opcodeStreamOffset h.opcodeStreamLength ||
        !inBody h h.operandPoolOffset h.operandPoolLength ||
        !inBody h h.auxBodyOffset h.auxBodyLength then .error .truncated
    else if h.opcodeStreamLength % opcodeRecordBytes ≠ 0 then
      .error (.codec (.opcodeStreamLength h.opcodeStreamLength))
    else if h.operandPoolLength % operandPoolEntryBytes ≠ 0 then
      .error (.codec (.operandPoolLength h.operandPoolLength))
    else decodeSections dec h (.read bytes h)

/-- Decode a module. -/
def moduleFromWireBytes (dec : Decoders C A O D) (bytes : List Byte) :
    Except LoadError (DecodedModule C A O D) :=
  let bytes := stripShebangPrefix bytes
  let h := FrameHeader.read bytes
  if bytes.length < wireFormatHeaderBytes + wireFormatFooterBytes then .error .truncated
  else if slice bytes 0 4 ≠ bytecodeMagic then .error .badMagic
  else if h.version ≠ bytecodeVersion then .error (.unsupportedVersion h.version bytecodeVersion)
  else if h.headerLength < wireFormatHeaderBytes then
    .error (.codec (.headerLengthBelowMinimum h.headerLength))
  else if bytes.length < h.headerLength then .error .truncated
  else if h.totalLength < h.headerLength + wireFormatFooterBytes ∨ bytes.length < h.totalLength then
    .error .truncated
  else moduleFromFrame dec h (bytes.take h.totalLength)

/-! ## Signatures -/

/-- Zero `n` bytes from `start` on. -/
def zeroRange (start n : ℕ) (bytes : List Byte) : List Byte :=
  bytes.take start ++ List.replicate (min n (bytes.length - start)) 0 ++ bytes.drop (start + n)

/-- What a signature is over: the frame with the signature and the trailer zeroed. -/
def signedMessage (info : SignatureInfo) (bytes : List Byte) : List Byte :=
  zeroRange (bytes.length - wireFormatFooterBytes) wireFormatFooterBytes
    (zeroRange info.signatureOffset info.signatureLength bytes)

/-- The message and the signature of a framed module. -/
def messageAndSignature (bytes : List Byte) : Except LoadError (List Byte × List Byte) :=
  let bytes := stripShebangPrefix bytes
  let headerLength := field bytes 6 2
  let totalLength := field bytes 8 4
  if bytes.length < wireFormatHeaderBytes + wireFormatFooterBytes then .error .truncated
  else if slice bytes 0 4 ≠ bytecodeMagic then .error .badMagic
  else if bytes.length < totalLength ∨ totalLength < headerLength + wireFormatFooterBytes then
    .error .truncated
  else do
    let bytes := bytes.take totalLength
    match ← parseSignatureMetadata bytes headerLength with
    | none => .error (.codec .notSigned)
    | some info =>
      return (signedMessage info bytes, slice bytes info.signatureOffset info.signatureLength)

section

variable {K V : Type} (verifyStrict : K → List Byte → List Byte → Bool)

/-- Check the signature of a framed module against the keys of the host. -/
def verifyModuleSignature (bytes : List Byte) (keys : List K) : Except LoadError Unit := do
  let (message, signature) ← messageAndSignature bytes
  if keys.any fun key => verifyStrict key message signature then .ok () else .error .invalidSignature

/-- Load a module under the keys of the host; `construct` makes a machine of a decoded module. -/
def loadSignedBytes (dec : Decoders C A O D)
    (construct : DecodedModule C A O D → Except LoadError V) (bytes : List Byte) (keys : List K) :
    Except LoadError V := do
  if headerRequiresSignature bytes then verifyModuleSignature verifyStrict bytes keys
  else if keys.isEmpty then .ok ()
  else .error .invalidSignature
  construct (← moduleFromWireBytes dec bytes)

end

end Keleusma.Framing
