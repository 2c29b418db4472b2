import Keleusma.Wire.Ecc

/-!
# The reader

A view over the bytes of an artifact. The prologue is voted first, since its copies are at fixed
places; the region count in it says where the copies of the directory are. `scrub` repairs the
protected regions in place.
-/

namespace KeleusmaWire

open Overflow

/-- A parsed artifact. -/
structure WireView where
  bytes : List Byte
  regionCount : ℕ
  prologueDisagreed : Bool
  directoryDisagreed : Bool

/-! ## Voting -/

/-- The voted byte of three copies that are `span` bytes apart. -/
def voted (bytes : List Byte) (start span i : ℕ) : Byte :=
  maj3 (byteAt bytes (start + i)) (byteAt bytes (start + span + i))
    (byteAt bytes (start + 2 * span + i))

/-- Whether a copy disagrees with the vote. -/
def disagrees (bytes : List Byte) (start span i : ℕ) : Bool :=
  let v := voted bytes start span i
  byteAt bytes (start + i) != v || byteAt bytes (start + span + i) != v ||
    byteAt bytes (start + 2 * span + i) != v

namespace WireView

/-- Whether a copy was outvoted. -/
def needsScrub (v : WireView) : Bool := v.prologueDisagreed || v.directoryDisagreed

/-! ## The directory -/

/-- The length of one copy of the directory. -/
def dirSpan (v : WireView) : ℕ := v.regionCount * dirEntryBytes

/-- A byte of the directory, by vote of its copies. -/
def dirByte (v : WireView) (index offset : ℕ) : Byte :=
  voted v.bytes directoryOffset v.dirSpan (index * dirEntryBytes + offset)

/-- Whether the copies of the directory disagree anywhere. -/
def directoryHasDisagreement (v : WireView) : Bool :=
  (List.range v.dirSpan).any (disagrees v.bytes directoryOffset v.dirSpan)

/-- The entry of the directory at an index. -/
def regionAt (v : WireView) (index : ℕ) : Option Region :=
  if v.regionCount ≤ index then none
  else do
    let e := (List.range dirEntryBytes).map (v.dirByte index)
    return ⟨← u16At e 0, ← u16At e 2, ← u32At e 4, ← u32At e 8, ← u16At e 12⟩

/-- The payload of a region. -/
def regionBytes (usizeBits : ℕ) (v : WireView) (r : Region) : Except WireError (List Byte) :=
  match r.byteOffset usizeBits, r.byteLength usizeBits with
  | some start, some len =>
    match checkedAdd usizeBits start len with
    | none => .error .overflow
    | some stop =>
      if stop ≤ v.bytes.length then .ok (slice v.bytes start len) else .error (.regionOutOfBounds 0)
  | _, _ => .error .overflow

/-- The region of a kind. -/
def findRegion (v : WireView) (kind : BitVec 16) : Option Region :=
  (List.range v.regionCount).findSome? fun i =>
    (v.regionAt i).filter fun r => r.kind == kind

/-- The first parity plane that covers a kind. -/
def planeOf (v : WireView) (kind : BitVec 16) : Option Region :=
  (List.range v.regionCount).findSome? fun i =>
    (v.regionAt i).filter fun c => c.isEccPlane && c.covers == kind

/-- The parity plane that protects a region. -/
def eccFor (usizeBits : ℕ) (v : WireView) (r : Region) : Option (List Byte) := do
  let plane ← v.planeOf r.kind
  (v.regionBytes usizeBits plane).toOption

/-! ## Validation -/

/-- The check of one entry: its payload lies inside, and no later entry has its kind. -/
def validateRegion (usizeBits : ℕ) (v : WireView) (i : ℕ) : Except WireError Unit :=
  match v.regionAt i with
  | none => .error (.regionOutOfBounds i)
  | some r =>
    match r.byteOffset usizeBits, r.byteLength usizeBits with
    | some start, some len =>
      match checkedAdd usizeBits start len with
      | none => .error .overflow
      | some stop =>
        if v.bytes.length < stop then .error (.regionOutOfBounds i)
        else
          (List.range' (i + 1) (v.regionCount - (i + 1))).forM fun j =>
            match v.regionAt j with
            | none => .error (.regionOutOfBounds j)
            | some other => if other.kind = r.kind then .error (.duplicateRegion r.kind) else .ok ()
    | _, _ => .error .overflow

/-- Check all regions. -/
def validateRegions (usizeBits : ℕ) (v : WireView) : Except WireError Unit :=
  (List.range v.regionCount).forM (v.validateRegion usizeBits)

/-! ## Parsing -/

/-- The voted prologue. -/
def prologue (bytes : List Byte) : List Byte :=
  (List.range prologueBytes).map (voted bytes 0 prologueBytes)

/-- The fields of a prologue: the region count, if they are in order. -/
def parsePrologue (prologue : List Byte) : Except WireError (BitVec 16) :=
  if u32At prologue 0 ≠ some magic then .error .badMagic
  else
    match u16At prologue 4 with
    | none => .error .truncated
    | some marker =>
      if marker ≠ bom then .error .foreignEndian
      else
        match u16At prologue 6 with
        | none => .error .truncated
        | some version =>
          if version ≠ formatVersion then .error (.unsupportedVersion version)
          else
            match u32At prologue 12 with
            | none => .error .truncated
            | some want =>
              if crc32 (prologue.take 12) ≠ want then .error .badPrologueChecksum
              else
                match u16At prologue 8 with
                | none => .error .truncated
                | some regionCount =>
                  if maxRegions < regionCount.toNat then
                    .error (.tooManyRegions (regionCount.setWidth 32))
                  else .ok regionCount

/-- Parse and validate an artifact. -/
def parse (usizeBits : ℕ) (bytes : List Byte) : Except WireError WireView :=
  if bytes.length < prologueBytes * copies then .error .truncated
  else
    match parsePrologue (prologue bytes) with
    | .error e => .error e
    | .ok regionCount =>
      match headerBytes usizeBits regionCount.toNat with
      | none => .error .overflow
      | some header =>
        if bytes.length < header then .error .truncated
        else
          let view : WireView :=
            { bytes := bytes
              regionCount := regionCount.toNat
              prologueDisagreed :=
                (List.range prologueBytes).any (disagrees bytes 0 prologueBytes)
              directoryDisagreed := false }
          let view := { view with directoryDisagreed := view.directoryHasDisagreement }
          match view.validateRegions usizeBits with
          | .error e => .error e
          | .ok () => .ok view

/-! ## Verification -/

/-- What the check bytes say about a region. -/
def verifyRegion (usizeBits : ℕ) (v : WireView) (r : Region) : Option EccReport := do
  let plane ← v.eccFor usizeBits r
  let data ← (v.regionBytes usizeBits r).toOption
  return planeScan usizeBits plane data

/-- The sum of two reports. -/
def addReport (a b : EccReport) : EccReport :=
  ⟨a.words + b.words, a.corrected + b.corrected, a.uncorrectable + b.uncorrectable⟩

/-- Scan every protected region against its plane; `none` if there is none. -/
def verifyAll (usizeBits : ℕ) (v : WireView) : Option EccReport :=
  (List.range v.regionCount).foldl (fun total i =>
    match v.regionAt i with
    | none => total
    | some r =>
      if r.isEccPlane || !r.hasEcc then total
      else
        match v.verifyRegion usizeBits r with
        | none => total
        | some rep => some (addReport (total.getD ⟨0, 0, 0⟩) rep)) none

end WireView

/-! ## Scrubbing -/

/-- Overwrite bytes in place. -/
def overwrite (bytes : List Byte) (pos : ℕ) (l : List Byte) : List Byte :=
  bytes.take pos ++ l ++ bytes.drop (pos + l.length)

/-- Decode the words of a region from index `w` on and write back what was corrected. -/
def scrubWords (base len planeBase planeLen : ℕ) :
    List ℕ → List Byte × EccReport → List Byte × EccReport
  | [], s => s
  | w :: ws, (bytes, total) =>
    let pos := base + w * 8
    match bytes[planeBase + w]? with
    | none => (bytes, total)
    | some check =>
      if planeLen ≤ w then (bytes, total)
      else
        let stop := min (pos + 8) (base + len)
        if stop ≤ bytes.length ∧ pos ≤ stop then
          let src := slice bytes pos (stop - pos)
          let word := src ++ List.replicate (8 - src.length) 0
          let status := decodeWord (BitVec.ofNat 64 (LittleEndian.ofBytes word)) check
          let bytes :=
            match status with
            | .corrected fixed =>
              overwrite bytes pos ((LittleEndian.toBytes 8 fixed.toNat).take (stop - pos))
            | _ => bytes
          scrubWords base len planeBase planeLen ws (bytes, total.count (some status))
        else (bytes, total)

/-- Where a protected region and its plane lie: base and length of the data and of the plane. -/
def scrubSpans (usizeBits : ℕ) (v : WireView) (i : ℕ) : Option (ℕ × ℕ × ℕ × ℕ) := do
  let r ← v.regionAt i
  if r.isEccPlane || !r.hasEcc then none
  else
    let base ← r.byteOffset usizeBits
    let data ← (v.regionBytes usizeBits r).toOption
    let c ← v.planeOf r.kind
    let planeBase ← c.byteOffset usizeBits
    let plane ← (v.regionBytes usizeBits c).toOption
    return (base, data.length, planeBase, plane.length)

/-- Scrub one region after the other; a region without spans is passed over. -/
def scrubRegions (usizeBits : ℕ) :
    List ℕ → Bool → List Byte × EccReport → List Byte × Option EccReport
  | [], anyPlane, (bytes, total) => (bytes, if anyPlane then some total else none)
  | i :: is, anyPlane, (bytes, total) =>
    match WireView.parse usizeBits bytes with
    | .error _ => (bytes, none)
    | .ok view =>
      match scrubSpans usizeBits view i with
      | none => scrubRegions usizeBits is anyPlane (bytes, total)
      | some (base, len, planeBase, planeLen) =>
        scrubRegions usizeBits is true
          (scrubWords base len planeBase planeLen (List.range ((len + 7) / 8)) (bytes, total))

/-- Repair every protected region in place. -/
def scrub (usizeBits : ℕ) (bytes : List Byte) : List Byte × Option EccReport :=
  match WireView.parse usizeBits bytes with
  | .error _ => (bytes, none)
  | .ok view => scrubRegions usizeBits (List.range view.regionCount) false (bytes, ⟨0, 0, 0⟩)

end KeleusmaWire
