import Keleusma.Wire.Ecc

/-!
# The encoder

A builder keeps one buffer per region. `finish` lays the buffers out in the order of their
declaration, each parity plane right after the region it protects, and writes the directory before
them.
-/

namespace KeleusmaWire

open Overflow

/-- A region under construction. -/
structure RegionBuf where
  kind : BitVec 16
  flags : BitVec 16
  bytes : List Byte
  /-- The kind of the parity plane that `finish` generates for it. -/
  eccKind : Option (BitVec 16)

/-- The regions of a container to be written. -/
structure WireBuilder where
  regions : List RegionBuf

/-- A record: the writer fills a slice whose length it cannot change. -/
class WireRecord (T : Type) where
  stride : ℕ
  writeRecord : T → (out : List Byte) → {l : List Byte // l.length = out.length}

/-- What a call returns, with the builder it leaves. -/
abbrev Reply (α : Type) : Type := Except WireError α × WireBuilder

namespace WireBuilder

/-- No regions. -/
def new : WireBuilder := ⟨[]⟩

/-- Whether a region or a pending plane has the kind. -/
def kindInUse (b : WireBuilder) (kind : BitVec 16) : Bool :=
  b.regions.any fun r => r.kind == kind || r.eccKind == some kind

/-- The number of regions that `finish` will write, planes included. -/
def emitCount (b : WireBuilder) : ℕ :=
  b.regions.length + b.regions.countP fun r => r.eccKind.isSome

/-- Declare a region; its handle is its index. -/
def region (b : WireBuilder) (kind flags : BitVec 16) : Reply ℕ :=
  if b.kindInUse kind then (.error (.duplicateRegion kind), b)
  else if maxRegions ≤ b.emitCount then
    (.error (.tooManyRegions (BitVec.ofNat 32 b.emitCount + 1)), b)
  else (.ok b.regions.length, ⟨b.regions ++ [⟨kind, flags, [], none⟩]⟩)

/-- Generate a parity plane for a region. -/
def protect (b : WireBuilder) (id : ℕ) (eccKind : BitVec 16) : Reply Unit :=
  if b.kindInUse eccKind then (.error (.duplicateRegion eccKind), b)
  else
    match b.regions[id]? with
    | none => (.error .panicked, b)
    | some r =>
      if r.eccKind.isSome then (.error (.duplicateRegion r.kind), b)
      else if maxRegions < b.emitCount + 1 then
        (.error (.tooManyRegions (BitVec.ofNat 32 b.emitCount + 1)), b)
      else
        let r' := { r with eccKind := some eccKind, flags := r.flags ||| flagEccPresent }
        (.ok (), ⟨b.regions.set id r'⟩)

/-- Protect the regions that have no plane yet, up to the first failure. -/
def protectEach (b : WireBuilder) : List ℕ → Reply Unit
  | [] => (.ok (), b)
  | i :: is =>
    match b.regions[i]? with
    | none => (.error .panicked, b)
    | some r =>
      if r.eccKind.isSome then b.protectEach is
      else
        match b.protect i (planeKindFor r.kind) with
        | (.ok (), b') => b'.protectEach is
        | (.error e, b') => (.error e, b')

/-- Add a plane of check bytes to every region. -/
def protectAll (b : WireBuilder) : Reply Unit := b.protectEach (List.range b.regions.length)

/-- Append bytes to a region. -/
def push (b : WireBuilder) (id : ℕ) (bytes : List Byte) : Reply Unit :=
  match b.regions[id]? with
  | none => (.error .panicked, b)
  | some r => (.ok (), ⟨b.regions.set id { r with bytes := r.bytes ++ bytes }⟩)

/-- Append one record, padded to its stride. -/
def pushRecord {T : Type} [WireRecord T] (b : WireBuilder) (id : ℕ) (record : T) : Reply Unit :=
  b.push id (WireRecord.writeRecord record (List.replicate (WireRecord.stride T) 0#8)).val

/-- The builders that a caller can arrive at; the flags of the container are not the caller's. -/
inductive Reachable : WireBuilder → Prop
  | new : Reachable new
  | region {b : WireBuilder} {kind flags : BitVec 16} (h : Reachable b)
      (hecc : flags &&& flagIsEcc = 0) (hpresent : flags &&& flagEccPresent = 0) :
      Reachable (b.region kind flags).2
  | protect {b : WireBuilder} {id : ℕ} {eccKind : BitVec 16} (h : Reachable b) :
      Reachable (b.protect id eccKind).2
  | protectAll {b : WireBuilder} (h : Reachable b) : Reachable b.protectAll.2
  | push {b : WireBuilder} {id : ℕ} {bytes : List Byte} (h : Reachable b) :
      Reachable (b.push id bytes).2
  | pushRecord {T : Type} [WireRecord T] {b : WireBuilder} {id : ℕ} {record : T}
      (h : Reachable b) : Reachable (b.pushRecord id record).2

end WireBuilder

/-! ## Parity planes -/

/-- One check byte per word of the payload, the last word padded with zeros. -/
def parityOf (bytes : List Byte) : List Byte :=
  (List.range ((bytes.length + 7) / 8)).map fun i =>
    let chunk := (bytes.drop (i * word)).take word
    let padded := chunk ++ List.replicate (word - chunk.length) 0
    checkByte ((u64At padded 0).getD 0)

/-! ## The artifact -/

/-- A region that will be written, a plane among them. -/
structure Emit where
  kind : BitVec 16
  flags : BitVec 16
  covers : BitVec 16
  bytes : List Byte

/-- Every region, followed by its plane if it has one. -/
def RegionBuf.emit (r : RegionBuf) : List Emit :=
  ⟨r.kind, r.flags, 0, r.bytes⟩ ::
    match r.eccKind with
    | none => []
    | some eccKind => [⟨eccKind, flagIsEcc, r.kind, parityOf r.bytes⟩]

/-- Where the payloads go, in words, and where the last one ends. -/
def offsets (usizeBits : ℕ) : ℕ → List Emit → Option (List (ℕ × ℕ) × ℕ)
  | cursor, [] => some ([], cursor)
  | cursor, e :: es => do
    let words ← wordsFor usizeBits e.bytes.length
    let (offs, stop) ← offsets usizeBits (← checkedAdd usizeBits cursor words) es
    return ((cursor, words) :: offs, stop)

/-- The bytes of a prologue. -/
def prologueOf (regionCount : BitVec 16) : List Byte :=
  let fields := u32Bytes magic ++ u16Bytes bom ++ u16Bytes formatVersion ++ u16Bytes regionCount ++
    u16Bytes 0
  fields ++ u32Bytes (crc32 fields)

/-- The bytes of a directory entry. -/
def entryBytes (r : Region) : List Byte :=
  u16Bytes r.kind ++ u16Bytes r.flags ++ u32Bytes r.wordOffset ++ u32Bytes r.wordLength ++
    u16Bytes r.covers ++ u16Bytes 0

/-- A conversion to `u32`. -/
def u32TryFrom (n : ℕ) : Except WireError (BitVec 32) :=
  if n < 2 ^ 32 then .ok (BitVec.ofNat 32 n) else .error .tooLarge

/-- The entries of the directory. -/
def directory : List Emit → List (ℕ × ℕ) → Except WireError (List Region)
  | e :: es, (off, len) :: offs => do
    let wordOffset ← u32TryFrom off
    let wordLength ← u32TryFrom len
    let rest ← directory es offs
    return ⟨e.kind, e.flags, wordOffset, wordLength, e.covers⟩ :: rest
  | _, _ => .ok []

/-- Push zeros until the length is a whole number of words. -/
def padOut (out : List Byte) : List Byte :=
  out ++ List.replicate ((word - out.length % word) % word) 0

/-- Checked arithmetic as a step of `finish`. -/
def checked {α : Type} : Option α → Except WireError α
  | none => .error .overflow
  | some a => .ok a

/-- Everything that will be written. -/
def WireBuilder.emits (b : WireBuilder) : List Emit := b.regions.flatMap RegionBuf.emit

/-- The bytes of the artifact: the copies of the header, then the payloads. -/
def writeOut (emit : List Emit) (entries : List Region) : List Byte :=
  let prologue := prologueOf (BitVec.ofNat 16 emit.length)
  let dir := entries.flatMap entryBytes
  let out := padOut (prologue ++ (prologue ++ (prologue ++ (dir ++ (dir ++ dir)))))
  emit.foldl (fun out e => padOut (out ++ e.bytes)) out

/-- Lay out the artifact. -/
def WireBuilder.finish (usizeBits : ℕ) (b : WireBuilder) : Except WireError (List Byte) := do
  let header ← checked (headerBytes usizeBits b.emits.length)
  let headerWords ← checked (wordsFor usizeBits header)
  let (offs, cursor) ← checked (offsets usizeBits headerWords b.emits)
  let _total ← checked (checkedMul usizeBits cursor word)
  if 2 ^ 16 ≤ b.emits.length then throw (.tooManyRegions (BitVec.ofNat 32 b.emits.length))
  else return writeOut b.emits (← directory b.emits offs)

end KeleusmaWire
