import Keleusma.Wire.View

/-!
# Indexing

The reader and the scrub with every index into the bytes made explicit: a program over `Option`
whose result is `none` when an index is out of range. `scrubIndexed_eq` says that this does not
happen, for any bytes.
-/

namespace KeleusmaWire

open Overflow

/-! ## Loops over `Option` -/

section

variable {α β : Type}

theorem mapM_some {f : α → Option β} {g : α → β} {l : List α} (h : ∀ x ∈ l, f x = some (g x)) :
    l.mapM f = some (l.map g) := by
  induction l with
  | nil => rfl
  | cons x l ih =>
    have htail := ih fun y hy => h y (List.mem_cons_of_mem _ hy)
    simp [List.mapM_cons, h x List.mem_cons_self, htail]

theorem anyM_some {f : α → Option Bool} {g : α → Bool} {l : List α}
    (h : ∀ x ∈ l, f x = some (g x)) : l.anyM f = some (l.any g) := by
  induction l with
  | nil => rfl
  | cons x l ih =>
    have htail := ih fun y hy => h y (List.mem_cons_of_mem _ hy)
    cases hx : g x <;> simp [List.anyM, h x List.mem_cons_self, hx, htail]

theorem findSomeM?_some {f : α → Option (Option β)} {g : α → Option β} {l : List α}
    (h : ∀ x ∈ l, f x = some (g x)) : l.findSomeM? f = some (l.findSome? g) := by
  induction l with
  | nil => rfl
  | cons x l ih =>
    have htail := ih fun y hy => h y (List.mem_cons_of_mem _ hy)
    cases hx : g x <;> simp [List.findSomeM?, List.findSome?, h x List.mem_cons_self, hx, htail]

/-- A loop of checks that stops at the first error. -/
def checkM (f : α → Option (Except WireError Unit)) : List α → Option (Except WireError Unit)
  | [] => some (.ok ())
  | x :: l => do
    match ← f x with
    | .error e => return .error e
    | .ok () => checkM f l

theorem checkM_some {f : α → Option (Except WireError Unit)} {g : α → Except WireError Unit}
    {l : List α} (h : ∀ x ∈ l, f x = some (g x)) : checkM f l = some (l.forM g) := by
  induction l with
  | nil => rfl
  | cons x l ih =>
    have htail := ih fun y hy => h y (List.mem_cons_of_mem _ hy)
    rw [checkM, h x List.mem_cons_self]
    cases hx : g x with
    | error e => simp [hx, Bind.bind, Except.bind]
    | ok u => simpa [hx, Bind.bind, Except.bind] using htail

end

/-! ## The reader -/

/-- The voted byte of three copies. -/
def votedIndexed (bytes : List Byte) (start span i : ℕ) : Option Byte := do
  return maj3 (← bytes[start + i]?) (← bytes[start + span + i]?) (← bytes[start + 2 * span + i]?)

/-- Whether a copy disagrees with the vote. -/
def disagreesIndexed (bytes : List Byte) (start span i : ℕ) : Option Bool := do
  let a ← bytes[start + i]?
  let b ← bytes[start + span + i]?
  let c ← bytes[start + 2 * span + i]?
  let v := maj3 a b c
  return a != v || b != v || c != v

namespace WireView

/-- Whether copies of the directory disagree, or an index out of bounds. -/
def directoryHasDisagreementIndexed (v : WireView) : Option Bool :=
  (List.range v.dirSpan).anyM (disagreesIndexed v.bytes directoryOffset v.dirSpan)

/-- The entry of a region, or an index out of bounds. -/
def regionAtIndexed (v : WireView) (index : ℕ) : Option (Option Region) :=
  if v.regionCount ≤ index then some none
  else do
    let e ← (List.range dirEntryBytes).mapM fun o =>
      votedIndexed v.bytes directoryOffset v.dirSpan (index * dirEntryBytes + o)
    return do return ⟨← u16At e 0, ← u16At e 2, ← u32At e 4, ← u32At e 8, ← u16At e 12⟩

/-- The plane of a kind, or an index out of bounds. -/
def planeOfIndexed (v : WireView) (kind : BitVec 16) : Option (Option Region) :=
  (List.range v.regionCount).findSomeM? fun i => do
    return (← v.regionAtIndexed i).filter fun c => c.isEccPlane && c.covers == kind

/-- The check of a region, or an index out of bounds. -/
def validateRegionIndexed (usizeBits : ℕ) (v : WireView) (i : ℕ) :
    Option (Except WireError Unit) := do
  match ← v.regionAtIndexed i with
  | none => return .error (.regionOutOfBounds i)
  | some r =>
    match r.byteOffset usizeBits, r.byteLength usizeBits with
    | some start, some len =>
      match checkedAdd usizeBits start len with
      | none => return .error .overflow
      | some stop =>
        if v.bytes.length < stop then return .error (.regionOutOfBounds i)
        else
          checkM (fun j => do
            match ← v.regionAtIndexed j with
            | none => return .error (.regionOutOfBounds j)
            | some other =>
              if other.kind = r.kind then return .error (.duplicateRegion r.kind)
              else return .ok ())
            (List.range' (i + 1) (v.regionCount - (i + 1)))
    | _, _ => return .error .overflow

/-- The check of all regions, or an index out of bounds. -/
def validateRegionsIndexed (usizeBits : ℕ) (v : WireView) : Option (Except WireError Unit) :=
  checkM (v.validateRegionIndexed usizeBits) (List.range v.regionCount)

/-- Parsing, or an index out of bounds. -/
def parseIndexed (usizeBits : ℕ) (bytes : List Byte) : Option (Except WireError WireView) :=
  if bytes.length < prologueBytes * copies then return .error .truncated
  else do
    let prologue ← (List.range prologueBytes).mapM (votedIndexed bytes 0 prologueBytes)
    let prologueDisagreed ←
      (List.range prologueBytes).anyM (disagreesIndexed bytes 0 prologueBytes)
    match parsePrologue prologue with
    | .error e => return .error e
    | .ok regionCount =>
      match headerBytes usizeBits regionCount.toNat with
      | none => return .error .overflow
      | some header =>
        if bytes.length < header then return .error .truncated
        else
          let view : WireView := ⟨bytes, regionCount.toNat, prologueDisagreed, false⟩
          let view :=
            { view with directoryDisagreed := ← view.directoryHasDisagreementIndexed }
          match ← view.validateRegionsIndexed usizeBits with
          | .error e => return .error e
          | .ok () => return .ok view

end WireView

/-! ## The scrub -/

/-- Overwrite a range of the bytes, which must lie inside and have the length of what is
written. -/
def overwriteIndexed (bytes : List Byte) (pos stop : ℕ) (l : List Byte) : Option (List Byte) :=
  if pos ≤ stop ∧ stop ≤ bytes.length ∧ l.length = stop - pos then some (overwrite bytes pos l)
  else none

/-- The repair of the words of a region, or an index out of bounds. -/
def scrubWordsIndexed (base len planeBase planeLen : ℕ) :
    List ℕ → List Byte × EccReport → Option (List Byte × EccReport)
  | [], s => some s
  | w :: ws, (bytes, total) =>
    let pos := base + w * 8
    match bytes[planeBase + w]? with
    | none => some (bytes, total)
    | some check =>
      if planeLen ≤ w then some (bytes, total)
      else
        let stop := min (pos + 8) (base + len)
        if stop ≤ bytes.length ∧ pos ≤ stop then do
          -- the word is an array of eight zeros of which the first bytes are overwritten
          let word ← overwriteIndexed (List.replicate 8 0) 0 (stop - pos)
            (slice bytes pos (stop - pos))
          let status := decodeWord (BitVec.ofNat 64 (LittleEndian.ofBytes word)) check
          let bytes ←
            match status with
            | .corrected fixed =>
              overwriteIndexed bytes pos stop
                ((LittleEndian.toBytes 8 fixed.toNat).take (stop - pos))
            | _ => some bytes
          scrubWordsIndexed base len planeBase planeLen ws (bytes, total.count (some status))
        else some (bytes, total)

/-- The repair of a region, or an index out of bounds. -/
def scrubSpansIndexed (usizeBits : ℕ) (v : WireView) (i : ℕ) :
    Option (Option (ℕ × ℕ × ℕ × ℕ)) := do
  match ← v.regionAtIndexed i with
  | none => return none
  | some r =>
    if r.isEccPlane || !r.hasEcc then return none
    else
      match r.byteOffset usizeBits, (v.regionBytes usizeBits r).toOption with
      | some base, some data =>
        match ← v.planeOfIndexed r.kind with
        | none => return none
        | some c =>
          match c.byteOffset usizeBits, (v.regionBytes usizeBits c).toOption with
          | some planeBase, some plane => return some (base, data.length, planeBase, plane.length)
          | _, _ => return none
      | _, _ => return none

/-- The repair of all regions, or an index out of bounds. -/
def scrubRegionsIndexed (usizeBits : ℕ) :
    List ℕ → Bool → List Byte × EccReport → Option (List Byte × Option EccReport)
  | [], anyPlane, (bytes, total) => some (bytes, if anyPlane then some total else none)
  | i :: is, anyPlane, (bytes, total) => do
    match ← WireView.parseIndexed usizeBits bytes with
    | .error _ => return (bytes, none)
    | .ok view =>
      match ← scrubSpansIndexed usizeBits view i with
      | none => scrubRegionsIndexed usizeBits is anyPlane (bytes, total)
      | some (base, len, planeBase, planeLen) =>
        let s ← scrubWordsIndexed base len planeBase planeLen (List.range ((len + 7) / 8))
          (bytes, total)
        scrubRegionsIndexed usizeBits is true s

/-- Repair every protected region in place. -/
def scrubIndexed (usizeBits : ℕ) (bytes : List Byte) : Option (List Byte × Option EccReport) := do
  match ← WireView.parseIndexed usizeBits bytes with
  | .error _ => return (bytes, none)
  | .ok view => scrubRegionsIndexed usizeBits (List.range view.regionCount) false (bytes, ⟨0, 0, 0⟩)

/-! ## Every index is in range -/

theorem getElem?_byteAt {bytes : List Byte} {i : ℕ} (h : i < bytes.length) :
    bytes[i]? = some (byteAt bytes i) := by
  rw [byteAt, List.getD_eq_getElem?_getD, List.getElem?_eq_getElem h, Option.getD_some]

theorem votedIndexed_eq {bytes : List Byte} {start span i : ℕ}
    (h : start + 2 * span + i < bytes.length) :
    votedIndexed bytes start span i = some (voted bytes start span i) := by
  have h₀ : start + i < bytes.length := by omega
  have h₁ : start + span + i < bytes.length := by omega
  simp [votedIndexed, voted, getElem?_byteAt h₀, getElem?_byteAt h₁, getElem?_byteAt h]

theorem disagreesIndexed_eq {bytes : List Byte} {start span i : ℕ}
    (h : start + 2 * span + i < bytes.length) :
    disagreesIndexed bytes start span i = some (disagrees bytes start span i) := by
  have h₀ : start + i < bytes.length := by omega
  have h₁ : start + span + i < bytes.length := by omega
  simp [disagreesIndexed, disagrees, voted, getElem?_byteAt h₀, getElem?_byteAt h₁,
    getElem?_byteAt h]

namespace WireView

/-- The copies of the directory lie inside. -/
def DirectoryInside (v : WireView) : Prop :=
  directoryOffset + copies * v.dirSpan ≤ v.bytes.length

variable {v : WireView} {usizeBits : ℕ}

theorem directoryHasDisagreementIndexed_eq (h : v.DirectoryInside) :
    v.directoryHasDisagreementIndexed = some v.directoryHasDisagreement := by
  apply anyM_some
  intro i hi
  have hi := List.mem_range.mp hi
  rw [DirectoryInside, copies] at h
  exact disagreesIndexed_eq (by omega)

theorem regionAtIndexed_eq (h : v.DirectoryInside) (index : ℕ) :
    v.regionAtIndexed index = some (v.regionAt index) := by
  unfold regionAtIndexed regionAt
  split
  · rfl
  next hindex =>
    have hentry : (List.range dirEntryBytes).mapM (fun o =>
        votedIndexed v.bytes directoryOffset v.dirSpan (index * dirEntryBytes + o)) =
          some ((List.range dirEntryBytes).map (v.dirByte index)) := by
      apply mapM_some
      intro o ho
      have ho := List.mem_range.mp ho
      have hspan : (index + 1) * dirEntryBytes ≤ v.dirSpan :=
        Nat.mul_le_mul_right _ (by omega)
      rw [DirectoryInside, copies] at h
      rw [Nat.succ_mul] at hspan
      exact votedIndexed_eq (by omega)
    rw [hentry]
    rfl

theorem planeOfIndexed_eq (h : v.DirectoryInside) (kind : BitVec 16) :
    v.planeOfIndexed kind = some (v.planeOf kind) := by
  apply findSomeM?_some
  intro i _
  rw [regionAtIndexed_eq h]
  rfl

theorem validateRegionsIndexed_eq (h : v.DirectoryInside) :
    v.validateRegionsIndexed usizeBits = some (v.validateRegions usizeBits) := by
  apply checkM_some
  intro i _
  unfold validateRegionIndexed validateRegion
  rw [regionAtIndexed_eq h]
  cases hr : v.regionAt i with
  | none => rfl
  | some r =>
    simp only [Option.bind_eq_bind, Option.bind_some]
    cases r.byteOffset usizeBits with
    | none => rfl
    | some start =>
      cases r.byteLength usizeBits with
      | none => rfl
      | some len =>
        dsimp only
        cases checkedAdd usizeBits start len with
        | none => rfl
        | some stop =>
          dsimp only
          split
          · rfl
          · apply checkM_some
            intro j _
            rw [regionAtIndexed_eq h]
            cases v.regionAt j with
            | none => rfl
            | some other =>
              simp only [Option.bind_some]
              split <;> rfl

/-- The header of a parsed artifact has room for the copies of its directory. -/
theorem directoryInside_of_header {bytes : List Byte} {count header : ℕ} {d d' : Bool}
    (hheader : headerBytes usizeBits count = some header) (hlen : header ≤ bytes.length) :
    DirectoryInside ⟨bytes, count, d, d'⟩ := by
  obtain ⟨-, rfl⟩ := headerBytes_eq_some.mp hheader
  have hoff : directoryOffset = 48 := rfl
  rw [DirectoryInside, dirSpan, dirEntryBytes, copies, hoff]
  dsimp only
  omega

theorem prologueIndexed_eq {bytes : List Byte} (h : prologueBytes * copies ≤ bytes.length) :
    (List.range prologueBytes).mapM (votedIndexed bytes 0 prologueBytes) =
      some (prologue bytes) := by
  apply mapM_some
  intro i hi
  have hi := List.mem_range.mp hi
  rw [copies] at h
  exact votedIndexed_eq (by omega)

theorem prologueDisagreed_eq {bytes : List Byte} (h : prologueBytes * copies ≤ bytes.length) :
    (List.range prologueBytes).anyM (disagreesIndexed bytes 0 prologueBytes) =
      some ((List.range prologueBytes).any (disagrees bytes 0 prologueBytes)) := by
  apply anyM_some
  intro i hi
  have hi := List.mem_range.mp hi
  rw [copies] at h
  exact disagreesIndexed_eq (by omega)

theorem parseIndexed_eq (bytes : List Byte) :
    parseIndexed usizeBits bytes = some (parse usizeBits bytes) := by
  unfold parseIndexed parse
  split
  · rfl
  next hlen =>
    rw [prologueIndexed_eq (not_lt.mp hlen), prologueDisagreed_eq (not_lt.mp hlen)]
    rw [Option.bind_eq_bind, Option.bind_some, Option.bind_eq_bind, Option.bind_some]
    cases parsePrologue (prologue bytes) with
    | error e => rfl
    | ok count =>
      simp only
      cases hheader : headerBytes usizeBits count.toNat with
      | none => rfl
      | some header =>
        simp only
        split
        · rfl
        next hshort =>
          have hinside (d d' : Bool) : DirectoryInside ⟨bytes, count.toNat, d, d'⟩ :=
            directoryInside_of_header hheader (not_lt.mp hshort)
          rw [directoryHasDisagreementIndexed_eq (hinside _ _), Option.bind_eq_bind,
            Option.bind_some, validateRegionsIndexed_eq (hinside _ _), Option.bind_some]
          generalize validateRegions usizeBits _ = checked
          cases checked <;> rfl

/-- What a successful parse has checked, and the view it gives. -/
theorem parse_eq_ok {bytes : List Byte} : parse usizeBits bytes = .ok v ↔
    prologueBytes * copies ≤ bytes.length ∧ ∃ count header,
      parsePrologue (prologue bytes) = .ok count ∧
      headerBytes usizeBits count.toNat = some header ∧ header ≤ bytes.length ∧
      v = ⟨bytes, count.toNat, (List.range prologueBytes).any (disagrees bytes 0 prologueBytes),
        directoryHasDisagreement ⟨bytes, count.toNat,
          (List.range prologueBytes).any (disagrees bytes 0 prologueBytes), false⟩⟩ ∧
      v.validateRegions usizeBits = .ok () := by
  constructor
  · intro h
    unfold parse at h
    split at h
    · cases h
    next hlong =>
      split at h
      · cases h
      next count hcount =>
        split at h
        · cases h
        next header hheader =>
          split at h
          · cases h
          next hfits =>
            dsimp only at h
            split at h
            · cases h
            next hvalid =>
              cases h
              exact ⟨not_lt.mp hlong, count, header, hcount, hheader, not_lt.mp hfits, rfl, hvalid⟩
  · rintro ⟨hlong, count, header, hcount, hheader, hfits, rfl, hvalid⟩
    rw [parse, if_neg (not_lt.mpr hlong), hcount]
    simp only [hheader, if_neg (not_lt.mpr hfits), hvalid]

theorem parse_ok {bytes : List Byte} (h : parse usizeBits bytes = .ok v) :
    v.bytes = bytes ∧ v.DirectoryInside := by
  obtain ⟨-, count, header, -, hheader, hfits, rfl, -⟩ := parse_eq_ok.mp h
  exact ⟨rfl, directoryInside_of_header hheader hfits⟩

end WireView

/-! ## Every index of the scrub -/

variable {usizeBits : ℕ} {v : WireView}

theorem scrubSpansIndexed_eq (h : v.DirectoryInside) (i : ℕ) :
    scrubSpansIndexed usizeBits v i = some (scrubSpans usizeBits v i) := by
  unfold scrubSpansIndexed scrubSpans
  rw [WireView.regionAtIndexed_eq h]
  cases v.regionAt i with
  | none => rfl
  | some r =>
    simp only [Option.bind_eq_bind, Option.bind_some]
    split
    · rfl
    · rw [WireView.planeOfIndexed_eq h]
      cases r.byteOffset usizeBits with
      | none => rfl
      | some base =>
        cases (v.regionBytes usizeBits r).toOption with
        | none => rfl
        | some data =>
          simp only [Option.bind_some]
          cases v.planeOf r.kind with
          | none => rfl
          | some c =>
            simp only [Option.bind_some]
            cases c.byteOffset usizeBits with
            | none => rfl
            | some planeBase => cases (v.regionBytes usizeBits c).toOption <;> rfl

/-- The first bytes of an array of eight zeros are overwritten. -/
theorem overwriteIndexed_zeros {src : List Byte} {n : ℕ} (hn : n ≤ 8) (hsrc : src.length = n) :
    overwriteIndexed (List.replicate 8 0) 0 n src =
      some (src ++ List.replicate (8 - src.length) 0) := by
  have hdrop : (List.replicate 8 (0 : Byte)).drop src.length = List.replicate (8 - src.length) 0 :=
    List.drop_replicate
  rw [overwriteIndexed, if_pos ⟨Nat.zero_le _, by rwa [List.length_replicate], hsrc⟩, overwrite,
    List.take_zero, List.nil_append, Nat.zero_add, hdrop]

theorem scrubWordsIndexed_eq (base len planeBase planeLen : ℕ) (ws : List ℕ)
    (s : List Byte × EccReport) :
    scrubWordsIndexed base len planeBase planeLen ws s =
      some (scrubWords base len planeBase planeLen ws s) := by
  induction ws generalizing s with
  | nil => rfl
  | cons w ws ih =>
    obtain ⟨bytes, total⟩ := s
    unfold scrubWordsIndexed scrubWords
    dsimp only
    cases hcheck : bytes[planeBase + w]? with
    | none => rfl
    | some check =>
      dsimp only
      split
      · rfl
      · split
        next hstop =>
          have hspan : min (base + w * 8 + 8) (base + len) - (base + w * 8) ≤ 8 := by omega
          have hsrc : (slice bytes (base + w * 8) (min (base + w * 8 + 8) (base + len) -
              (base + w * 8))).length = min (base + w * 8 + 8) (base + len) - (base + w * 8) :=
            length_slice (by omega)
          rw [overwriteIndexed_zeros hspan hsrc, Option.bind_eq_bind, Option.bind_some]
          generalize decodeWord _ check = status
          cases status with
          | corrected fixed =>
            have hfixed : ((LittleEndian.toBytes 8 fixed.toNat).take
                (min (base + w * 8 + 8) (base + len) - (base + w * 8))).length =
                min (base + w * 8 + 8) (base + len) - (base + w * 8) := by
              rw [List.length_take, LittleEndian.length_toBytes]
              exact Nat.min_eq_left hspan
            dsimp only
            rw [overwriteIndexed, if_pos ⟨hstop.2, hstop.1, hfixed⟩, Option.bind_some]
            exact ih _
          | clean value => exact ih _
          | uncorrectable => exact ih _
        · rfl

theorem scrubRegionsIndexed_eq (is : List ℕ) (anyPlane : Bool) (s : List Byte × EccReport) :
    scrubRegionsIndexed usizeBits is anyPlane s = some (scrubRegions usizeBits is anyPlane s) := by
  induction is generalizing anyPlane s with
  | nil => rfl
  | cons i is ih =>
    obtain ⟨bytes, total⟩ := s
    rw [scrubRegionsIndexed, scrubRegions, WireView.parseIndexed_eq]
    cases hparse : WireView.parse usizeBits bytes with
    | error e => rfl
    | ok view =>
      simp only [Option.bind_eq_bind, Option.bind_some]
      rw [scrubSpansIndexed_eq (WireView.parse_ok hparse).2]
      cases scrubSpans usizeBits view i with
      | none => exact ih anyPlane (bytes, total)
      | some spans =>
        obtain ⟨base, len, planeBase, planeLen⟩ := spans
        simp only [Option.bind_some]
        rw [scrubWordsIndexed_eq]
        exact ih true _

/-- **A scrub never indexes out of range**, whatever the bytes are. -/
theorem scrubIndexed_eq (bytes : List Byte) :
    scrubIndexed usizeBits bytes = some (scrub usizeBits bytes) := by
  rw [scrubIndexed, scrub, WireView.parseIndexed_eq]
  cases WireView.parse usizeBits bytes with
  | error e => rfl
  | ok view => exact scrubRegionsIndexed_eq _ _ _

end KeleusmaWire
