import Keleusma.Wire.Indexing
import Keleusma.Wire.Scrubbing

/-!
# Scrubbing hostile bytes

The directory of an artifact may place its regions anywhere: on each other, on their own planes or
on the header. A repair then rewrites bytes that the scrub reads elsewhere. `Undisturbed` says of
bytes that no repair does. Such bytes are left as they are when the scrub reports nothing, and a
second scrub changes none of the bytes that the first one left (`scrub_settles`).
-/

namespace KeleusmaWire

open Overflow

variable {bits : ℕ} {bytes t : List Byte} {v v' : WireView}

/-! ## What the directory depends on -/

namespace WireView

/-- Where the header ends. -/
def headerEnd (v : WireView) : ℕ := directoryOffset + copies * v.dirSpan

/-- The views have the same length and the same header. -/
structure SameHeader (v v' : WireView) : Prop where
  count : v'.regionCount = v.regionCount
  length : v'.bytes.length = v.bytes.length
  header : ∀ q < v.headerEnd, byteAt v'.bytes q = byteAt v.bytes q

theorem SameHeader.voted (h : SameHeader v v') {start span i : ℕ}
    (hend : start + 2 * span + i < v.headerEnd) :
    voted v'.bytes start span i = voted v.bytes start span i := by
  rw [KeleusmaWire.voted, KeleusmaWire.voted, h.header _ hend, h.header (start + i) (by omega),
    h.header (start + span + i) (by omega)]

theorem SameHeader.disagrees (h : SameHeader v v') {start span i : ℕ}
    (hend : start + 2 * span + i < v.headerEnd) :
    disagrees v'.bytes start span i = disagrees v.bytes start span i := by
  rw [KeleusmaWire.disagrees, KeleusmaWire.disagrees, h.voted hend, h.header _ hend,
    h.header (start + i) (by omega), h.header (start + span + i) (by omega)]

theorem SameHeader.dirSpan (h : SameHeader v v') : v'.dirSpan = v.dirSpan := by
  rw [WireView.dirSpan, WireView.dirSpan, h.count]

theorem SameHeader.regionAt (h : SameHeader v v') (i : ℕ) : v'.regionAt i = v.regionAt i := by
  rw [WireView.regionAt, WireView.regionAt, h.count]
  split
  · rfl
  next hi =>
    have hentry : (List.range dirEntryBytes).map (v'.dirByte i) =
        (List.range dirEntryBytes).map (v.dirByte i) := by
      apply List.map_congr_left
      intro o ho
      have ho := List.mem_range.mp ho
      have hspan : (i + 1) * dirEntryBytes ≤ v.dirSpan := Nat.mul_le_mul_right _ (by omega)
      rw [Nat.succ_mul] at hspan
      rw [dirByte, dirByte, h.dirSpan, h.voted (by rw [headerEnd, copies]; omega)]
    rw [hentry]

theorem SameHeader.planeOf (h : SameHeader v v') (kind : BitVec 16) :
    v'.planeOf kind = v.planeOf kind := by
  simp only [WireView.planeOf, h.count, h.regionAt]

theorem SameHeader.validateRegions (h : SameHeader v v') :
    v'.validateRegions bits = v.validateRegions bits := by
  have hentry : v'.validateRegion bits = v.validateRegion bits := by
    funext i
    simp only [WireView.validateRegion, h.count, h.length, h.regionAt]
  rw [WireView.validateRegions, WireView.validateRegions, h.count, hentry]

theorem SameHeader.directoryHasDisagreement (h : SameHeader v v') :
    v'.directoryHasDisagreement = v.directoryHasDisagreement := by
  rw [WireView.directoryHasDisagreement, WireView.directoryHasDisagreement, h.dirSpan]
  rw [Bool.eq_iff_iff]
  simp only [List.any_eq_true]
  refine exists_congr fun i => and_congr_right fun hi => ?_
  have hi := List.mem_range.mp hi
  rw [h.disagrees (by rw [headerEnd, copies]; omega)]

/-- **Bytes with the header of a parsed artifact are parsed alike.** -/
theorem parse_congr (hparse : parse bits bytes = .ok v) (hlen : t.length = bytes.length)
    (hsame : ∀ q < v.headerEnd, byteAt t q = byteAt bytes q) :
    parse bits t = .ok { v with bytes := t } := by
  have hoff : directoryOffset = 48 := rfl
  have hsize : prologueBytes = 16 := rfl
  have hfirst : ∀ i < prologueBytes, voted t 0 prologueBytes i = voted bytes 0 prologueBytes i ∧
      disagrees t 0 prologueBytes i = disagrees bytes 0 prologueBytes i := by
    intro i hi
    have hat (q : ℕ) (hq : q < 48) : byteAt t q = byteAt bytes q :=
      hsame q (by rw [headerEnd, hoff]; omega)
    rw [disagrees, disagrees, voted, voted, hat _ (by omega), hat _ (by omega), hat _ (by omega)]
    exact ⟨rfl, rfl⟩
  have hprologue : prologue t = prologue bytes :=
    List.map_congr_left fun i hi => (hfirst i (List.mem_range.mp hi)).1
  have hany : (List.range prologueBytes).any (disagrees t 0 prologueBytes) =
      (List.range prologueBytes).any (disagrees bytes 0 prologueBytes) := by
    rw [Bool.eq_iff_iff]
    simp only [List.any_eq_true]
    refine exists_congr fun i => and_congr_right fun hi => ?_
    rw [(hfirst i (List.mem_range.mp hi)).2]
  obtain ⟨hlong, count, header, hcount, hheader, hfits, rfl, hvalid⟩ := parse_eq_ok.mp hparse
  have hview (d d' : Bool) : SameHeader ⟨bytes, count.toNat, d, d'⟩ ⟨t, count.toNat, d, d'⟩ :=
    ⟨rfl, hlen, hsame⟩
  refine parse_eq_ok.mpr ⟨hlen ▸ hlong, count, header, hprologue ▸ hcount, hheader, hlen ▸ hfits,
    ?_, ?_⟩
  · rw [hany, (hview _ _).directoryHasDisagreement]
  · exact (hview _ _).validateRegions.trans hvalid

end WireView

/-! ## Where a scrub reads and writes -/

/-- Where the payload of a region lies, as offset and length, if it lies inside `n` bytes. -/
def spanOf (bits n : ℕ) (r : Region) : Option (ℕ × ℕ) := do
  let start ← r.byteOffset bits
  let len ← r.byteLength bits
  let stop ← checkedAdd bits start len
  if stop ≤ n then return (start, len) else none

theorem spanOf_ok {n base len : ℕ} {r : Region} (h : spanOf bits n r = some (base, len)) :
    base + len ≤ n ∧ 8 ∣ len := by
  simp only [spanOf, bind, Option.bind_eq_some_iff, checkedAdd_eq_some] at h
  obtain ⟨start, -, len', hlen', stop, ⟨-, rfl⟩, h⟩ := h
  split at h
  next hstop =>
    cases h
    obtain ⟨-, rfl⟩ := checkedMul_eq_some.mp hlen'
    exact ⟨hstop, Dvd.intro_left _ rfl⟩
  · cases h

theorem regionBytes_toOption (v : WireView) (r : Region) : (v.regionBytes bits r).toOption =
    (spanOf bits v.bytes.length r).map fun s => slice v.bytes s.1 s.2 := by
  rw [WireView.regionBytes, spanOf]
  cases r.byteOffset bits with
  | none => rfl
  | some start =>
    cases r.byteLength bits with
    | none => rfl
    | some len =>
      cases hstop : checkedAdd bits start len with
      | none => simp [hstop, Except.toOption]
      | some stop =>
        simp only [hstop, bind, Option.bind_some]
        split <;> rfl

theorem spanOf_byteOffset {n : ℕ} {r : Region} {s : ℕ × ℕ} (h : spanOf bits n r = some s) :
    r.byteOffset bits = some s.1 := by
  simp only [spanOf, bind, Option.bind_eq_some_iff] at h
  obtain ⟨start, hstart, len, -, stop, -, h⟩ := h
  split at h
  · cases h
    exact hstart
  · cases h

/-- The spans of a scrub are those of a protected region and of the plane that covers its kind. -/
theorem scrubSpans_eq_some {i base len planeBase planeLen : ℕ} :
    scrubSpans bits v i = some (base, len, planeBase, planeLen) ↔
      ∃ r c, v.regionAt i = some r ∧ (r.isEccPlane || !r.hasEcc) = false ∧
        spanOf bits v.bytes.length r = some (base, len) ∧ v.planeOf r.kind = some c ∧
        spanOf bits v.bytes.length c = some (planeBase, planeLen) := by
  rw [scrubSpans]
  simp only [bind, Option.bind_eq_some_iff, regionBytes_toOption]
  constructor
  · rintro ⟨r, hr, h⟩
    split at h
    · cases h
    next hprot =>
      simp only [Option.bind_eq_some_iff, Option.map_eq_some_iff] at h
      obtain ⟨base', hbase, data, ⟨s, hs, rfl⟩, c, hc, planeBase', hplane, plane, ⟨s', hs', rfl⟩,
        h⟩ := h
      cases h
      rw [spanOf_byteOffset hs] at hbase
      rw [spanOf_byteOffset hs'] at hplane
      cases hbase
      cases hplane
      rw [length_slice (spanOf_ok hs).1, length_slice (spanOf_ok hs').1]
      exact ⟨r, c, hr, by simpa using hprot, hs, hc, hs'⟩
  · rintro ⟨r, c, hr, hprot, hs, hc, hs'⟩
    refine ⟨r, hr, ?_⟩
    rw [if_neg (by simp [hprot])]
    simp only [Option.bind_eq_some_iff, Option.map_eq_some_iff]
    refine ⟨base, spanOf_byteOffset hs, _, ⟨_, hs, rfl⟩, c, hc, planeBase, spanOf_byteOffset hs',
      _, ⟨_, hs', rfl⟩, ?_⟩
    rw [length_slice (spanOf_ok hs).1, length_slice (spanOf_ok hs').1]
    rfl

theorem WireView.SameHeader.scrubSpans (h : WireView.SameHeader v v') (i : ℕ) :
    scrubSpans bits v' i = scrubSpans bits v i := by
  ext ⟨base, len, planeBase, planeLen⟩
  simp only [scrubSpans_eq_some, h.regionAt, h.planeOf, h.length]

/-! ## Repairs -/

/-- A word that a scrub of the artifact decodes, the `w`th of region `i`, and its check byte. -/
def Decoded (bits : ℕ) (v : WireView) (i w pos check : ℕ) : Prop :=
  ∃ base len planeBase planeLen, scrubSpans bits v i = some (base, len, planeBase, planeLen) ∧
    8 * w < len ∧ w < planeLen ∧ pos = base + 8 * w ∧ check = planeBase + w

/-- The word that a scrub leaves at a position. -/
def repaired (bytes : List Byte) (pos check : ℕ) : BitVec 64 :=
  match decodeWord (wordAt bytes pos) (byteAt bytes check) with
  | .corrected fixed => fixed
  | _ => wordAt bytes pos

/-- The byte that a scrub leaves at a position of a word. -/
def repairedByte (bytes : List Byte) (pos check q : ℕ) : Byte :=
  byteAt (LittleEndian.toBytes 8 (repaired bytes pos check).toNat) (q - pos)

/-- The repair of a word changes the byte at a position. -/
def Rewrites (bytes : List Byte) (pos check q : ℕ) : Prop :=
  pos ≤ q ∧ q < pos + 8 ∧ repairedByte bytes pos check q ≠ byteAt bytes q

/-- No repair disturbs what the scrub reads elsewhere: a byte that a repair changes lies behind the
header, is not the check byte of its word, and lies in no other word nor is it the check byte of
one. -/
def Apart (bits : ℕ) (v : WireView) : Prop :=
  ∀ i w pos check q, Decoded bits v i w pos check → Rewrites v.bytes pos check q →
    v.headerEnd ≤ q ∧ q ≠ check ∧
      ∀ i' w' pos' check', Decoded bits v i' w' pos' check' → InCodeword pos' check' q →
        i' = i ∧ w' = w

/-- The bytes are no artifact, or one in which no repair disturbs what is read elsewhere. -/
def Undisturbed (bits : ℕ) (bytes : List Byte) : Prop :=
  ∀ v, WireView.parse bits bytes = .ok v → Apart bits v

theorem Decoded.inside {i w pos check : ℕ} (h : Decoded bits v i w pos check) :
    pos + 8 ≤ v.bytes.length ∧ check < v.bytes.length := by
  obtain ⟨base, len, planeBase, planeLen, hspans, hw, hplane, rfl, rfl⟩ := h
  obtain ⟨r, c, -, -, hs, -, hs'⟩ := scrubSpans_eq_some.mp hspans
  obtain ⟨hdata, hwhole⟩ := spanOf_ok hs
  have hcover := (spanOf_ok hs').1
  omega

theorem Decoded.functional {i w pos check pos' check' : ℕ} (h : Decoded bits v i w pos check)
    (h' : Decoded bits v i w pos' check') : pos' = pos ∧ check' = check := by
  obtain ⟨base, len, planeBase, planeLen, hspans, -, -, rfl, rfl⟩ := h
  obtain ⟨base', len', planeBase', planeLen', hspans', -, -, rfl, rfl⟩ := h'
  rw [hspans] at hspans'
  cases hspans'
  exact ⟨rfl, rfl⟩

theorem WireView.SameHeader.decoded (h : WireView.SameHeader v v') {i w pos check : ℕ} :
    Decoded bits v' i w pos check ↔ Decoded bits v i w pos check := by
  simp only [Decoded, h.scrubSpans]

/-! ## Repairing a word -/

/-- A corrected word is clean, and decoding it again changes nothing. -/
theorem decodeWord_corrected {d f : BitVec 64} {c : Byte} (h : decodeWord d c = .corrected f) :
    f = d ∨ decodeWord f c = .clean f := by
  unfold decodeWord at h
  dsimp only at h
  split_ifs at h
  split at h
  next i hfound =>
    obtain ⟨hi, hcolumn, -⟩ := List.findIdx?_eq_some_iff_getElem.mp hfound
    rw [length_columns] at hi
    have hsyn : columns.getD i 0#8 = checkByte d ^^^ c := by
      rw [List.getD_eq_getElem _ _ (by rw [length_columns]; exact hi)]
      exact beq_iff_eq.mp hcolumn
    split_ifs at h with hlow
    · cases h
      right
      have hcheck : c = checkByte (d ^^^ (1#64 <<< i)) := by
        rw [checkByte_flip d hlow, hsyn, ← BitVec.xor_assoc, BitVec.xor_self, BitVec.zero_xor]
      rw [hcheck]
      exact decodeWord_clean _
    · cases h
      exact .inl rfl
  · cases h

/-- Decoding a repaired word with the same check byte leaves it. -/
theorem repaired_again (bytes : List Byte) (pos check : ℕ) :
    (match decodeWord (repaired bytes pos check) (byteAt bytes check) with
      | .corrected fixed => fixed
      | _ => repaired bytes pos check) = repaired bytes pos check := by
  cases hstatus : decodeWord (wordAt bytes pos) (byteAt bytes check) with
  | clean value =>
    have hrep : repaired bytes pos check = wordAt bytes pos := by rw [repaired, hstatus]
    rw [hrep, hstatus]
  | uncorrectable =>
    have hrep : repaired bytes pos check = wordAt bytes pos := by rw [repaired, hstatus]
    rw [hrep, hstatus]
  | corrected fixed =>
    have hrep : repaired bytes pos check = fixed := by rw [repaired, hstatus]
    rw [hrep]
    rcases decodeWord_corrected hstatus with rfl | hclean
    · rw [hstatus]
    · rw [hclean]

/-- A word is determined by its bytes. -/
theorem wordAt_eq {pos : ℕ} {x : BitVec 64} (h : pos + 8 ≤ bytes.length)
    (hbytes : ∀ j < 8, byteAt bytes (pos + j) = byteAt (LittleEndian.toBytes 8 x.toNat) j) :
    wordAt bytes pos = x := by
  have hslice : slice bytes pos 8 = LittleEndian.toBytes 8 x.toNat := by
    apply List.ext_getElem ((length_slice h).trans (LittleEndian.length_toBytes _ _).symm)
    intro j hj hj'
    rw [length_slice h] at hj
    rw [← byteAt_eq_getElem, ← byteAt_eq_getElem, byteAt_slice hj]
    exact hbytes j hj
  rw [wordAt, hslice, LittleEndian.ofBytes_toBytes x.isLt, BitVec.ofNat_toNat, BitVec.setWidth_eq]

/-- The bytes with a word repaired. -/
def repairWord (bytes : List Byte) (pos check : ℕ) : List Byte :=
  overwrite bytes pos (LittleEndian.toBytes 8 (repaired bytes pos check).toNat)

theorem length_repairWord {pos check : ℕ} (h : pos + 8 ≤ bytes.length) :
    (repairWord bytes pos check).length = bytes.length :=
  length_overwrite (by rwa [LittleEndian.length_toBytes])

theorem byteAt_repairWord {pos check : ℕ} (h : pos + 8 ≤ bytes.length) (q : ℕ) :
    byteAt (repairWord bytes pos check) q =
      if pos ≤ q ∧ q < pos + 8 then repairedByte bytes pos check q else byteAt bytes q := by
  have hlen := LittleEndian.length_toBytes 8 (repaired bytes pos check).toNat
  rw [repairWord, byteAt_overwrite (by rwa [hlen]), hlen]
  rfl

/-- The repair of a word that is not corrected leaves the bytes. -/
theorem repairWord_eq_self {pos check : ℕ} (h : pos + 8 ≤ bytes.length)
    (hsame : repaired bytes pos check = wordAt bytes pos) : repairWord bytes pos check = bytes := by
  apply ext_byteAt (length_repairWord h)
  intro q
  rw [byteAt_repairWord h]
  split
  next hq =>
    rw [repairedByte, hsame, toBytes_wordAt h, byteAt_slice (by omega), Nat.add_sub_cancel' hq.1]
  · rfl

/-- **One word of a scrub** is the repair of that word. -/
theorem scrubWords_repair {base len planeBase planeLen w : ℕ} (ws : List ℕ) (total : EccReport)
    (hw : 8 * w + 8 ≤ len) (hdata : base + len ≤ bytes.length)
    (hplane : planeBase + planeLen ≤ bytes.length) (hcover : w < planeLen) :
    ∃ total', scrubWords base len planeBase planeLen (w :: ws) (bytes, total) =
      scrubWords base len planeBase planeLen ws
        (repairWord bytes (base + 8 * w) (planeBase + w), total') := by
  have hpos : base + 8 * w + 8 ≤ bytes.length := by omega
  rw [scrubWords_eq ws total hw hdata hplane hcover]
  refine ⟨total.count (some (decodeWord (wordAt bytes (base + 8 * w))
    (byteAt bytes (planeBase + w)))), ?_⟩
  dsimp only
  congr 2
  cases hstatus : decodeWord (wordAt bytes (base + 8 * w)) (byteAt bytes (planeBase + w)) with
  | corrected fixed => simp only [repairWord, repaired, hstatus]
  | clean value => exact (repairWord_eq_self hpos (by simp only [repaired, hstatus])).symm
  | uncorrectable => exact (repairWord_eq_self hpos (by simp only [repaired, hstatus])).symm

theorem wordAt_congr {pos : ℕ} (h : pos + 8 ≤ bytes.length) (hlen : t.length = bytes.length)
    (hsame : ∀ q, pos ≤ q → q < pos + 8 → byteAt t q = byteAt bytes q) :
    wordAt t pos = wordAt bytes pos := by
  apply BitVec.eq_of_getLsbD_eq
  intro k hk
  rw [getLsbD_wordAt h hk, getLsbD_wordAt (hlen ▸ h) hk, hsame _ (by omega) (by omega)]

/-! ## The progress of a scrub -/

/-- The words that `D` selects are repaired, the others are those of the artifact. -/
structure Progress (bits : ℕ) (v : WireView) (D : ℕ → ℕ → Prop) (t : List Byte) : Prop where
  length : t.length = v.bytes.length
  rewritten : ∀ i w pos check q, D i w → Decoded bits v i w pos check →
    Rewrites v.bytes pos check q → byteAt t q = repairedByte v.bytes pos check q
  kept : ∀ q, (∀ i w pos check, D i w → Decoded bits v i w pos check →
    ¬Rewrites v.bytes pos check q) → byteAt t q = byteAt v.bytes q

variable {D D' : ℕ → ℕ → Prop} {i w pos check : ℕ}

theorem Progress.start (v : WireView) : Progress bits v (fun _ _ => False) v.bytes :=
  ⟨rfl, fun _ _ _ _ _ h => h.elim, fun _ _ => rfl⟩

/-- Only the words that a scrub decodes matter. -/
theorem Progress.congr (h : Progress bits v D t)
    (hD : ∀ i w pos check, Decoded bits v i w pos check → (D i w ↔ D' i w)) :
    Progress bits v D' t where
  length := h.length
  rewritten i w pos check q hi hd := h.rewritten i w pos check q ((hD i w pos check hd).mpr hi) hd
  kept q hq := h.kept q fun i w pos check hi hd => hq i w pos check ((hD i w pos check hd).mp hi) hd

/-- The header is that of the artifact. -/
theorem Progress.sameHeader (h : Progress bits v D t) (hapart : Apart bits v) :
    WireView.SameHeader v { v with bytes := t } := by
  refine ⟨rfl, h.length, fun q hq => h.kept q fun i w pos check _ hd hr => ?_⟩
  exact absurd hq (not_lt.mpr (hapart i w pos check q hd hr).1)

/-- A word that is not repaired yet is that of the artifact, and so is its check byte. -/
theorem Progress.fresh (h : Progress bits v D t) (hapart : Apart bits v)
    (hd : Decoded bits v i w pos check) (hfresh : ¬D i w) {q : ℕ} (hq : InCodeword pos check q) :
    byteAt t q = byteAt v.bytes q := by
  apply h.kept
  intro i' w' pos' check' hD hd' hr
  obtain ⟨rfl, rfl⟩ := (hapart i' w' pos' check' q hd' hr).2.2 i w pos check hd hq
  exact hfresh hD

/-- **One word**: its repair keeps what is repaired already. -/
theorem Progress.repair (h : Progress bits v D t) (hapart : Apart bits v)
    (hd : Decoded bits v i w pos check) (hfresh : ¬D i w) :
    Progress bits v (fun i' w' => D i' w' ∨ i' = i ∧ w' = w) (repairWord t pos check) := by
  have hinside := hd.inside.1
  have hpos : pos + 8 ≤ t.length := h.length ▸ hinside
  have hword : repaired t pos check = repaired v.bytes pos check := by
    rw [repaired, repaired, h.fresh hapart hd hfresh (.inr rfl), wordAt_congr hinside h.length
      fun q hlo hhi => h.fresh hapart hd hfresh (.inl ⟨hlo, hhi⟩)]
  have hbyte (q : ℕ) : repairedByte t pos check q = repairedByte v.bytes pos check q := by
    rw [repairedByte, hword]
    rfl
  refine ⟨(length_repairWord hpos).trans h.length, fun i' w' pos' check' q hD hd' hr => ?_,
    fun q hq => ?_⟩
  · rw [byteAt_repairWord hpos, hbyte]
    rcases hD with hD | ⟨rfl, rfl⟩
    · have hout : ¬(pos ≤ q ∧ q < pos + 8) := by
        intro hin
        obtain ⟨rfl, rfl⟩ := (hapart i' w' pos' check' q hd' hr).2.2 i w pos check hd (.inl hin)
        exact hfresh hD
      rw [if_neg hout]
      exact h.rewritten i' w' pos' check' q hD hd' hr
    · obtain ⟨rfl, rfl⟩ := hd.functional hd'
      rw [if_pos ⟨hr.1, hr.2.1⟩]
  · rw [byteAt_repairWord hpos, hbyte]
    split
    next hin =>
      have hkept := hq i w pos check (.inr ⟨rfl, rfl⟩) hd
      by_contra hne
      exact hkept ⟨hin.1, hin.2, hne⟩
    · exact h.kept q fun i' w' pos' check' hD => hq i' w' pos' check' (.inl hD)

/-- **The words of a region**: a scrub repairs those the plane covers and passes over the others. -/
theorem Progress.words (hapart : Apart bits v) {base len planeBase planeLen : ℕ}
    (hspans : scrubSpans bits v i = some (base, len, planeBase, planeLen)) {ws : List ℕ}
    (hsorted : ws.Pairwise (· < ·)) (hws : ∀ w ∈ ws, 8 * w < len) (hfresh : ∀ w ∈ ws, ¬D i w)
    (h : Progress bits v D t) (total : EccReport) :
    ∃ t' total', scrubWords base len planeBase planeLen ws (t, total) = (t', total') ∧
      Progress bits v (fun i' w' => D i' w' ∨ i' = i ∧ w' ∈ ws) t' := by
  obtain ⟨r, c, -, -, hs, -, hs'⟩ := scrubSpans_eq_some.mp hspans
  obtain ⟨hdata, hwhole⟩ := spanOf_ok hs
  have hplane := (spanOf_ok hs').1
  induction ws generalizing t D total with
  | nil => exact ⟨t, total, rfl, h.congr fun _ _ _ _ _ => by simp⟩
  | cons w ws ih =>
    obtain ⟨hhead, htail⟩ := List.pairwise_cons.mp hsorted
    have hw := hws w List.mem_cons_self
    rcases lt_or_ge w planeLen with hcover | hcover
    · have hd : Decoded bits v i w (base + 8 * w) (planeBase + w) :=
        ⟨base, len, planeBase, planeLen, hspans, hw, hcover, rfl, rfl⟩
      have hnext := h.repair hapart hd (hfresh w List.mem_cons_self)
      obtain ⟨total₁, hstep⟩ := scrubWords_repair ws total (by omega) (h.length ▸ hdata)
        (h.length ▸ hplane) hcover
      obtain ⟨t', total', hrun, hprogress⟩ := ih htail
        (fun w' hw' => hws w' (List.mem_cons_of_mem _ hw')) (fun w' hw' => by
          have hlt := hhead w' hw'
          have hfresh' := hfresh w' (List.mem_cons_of_mem _ hw')
          rintro (hD | ⟨-, rfl⟩)
          · exact hfresh' hD
          · exact lt_irrefl _ hlt) hnext total₁
      refine ⟨t', total', hstep.trans hrun, hprogress.congr fun i' w' _ _ _ => ?_⟩
      simp only [List.mem_cons]
      tauto
    · -- The plane ends before this word, and so before the later ones.
      refine ⟨t, total, ?_, h.congr fun i' w' pos check hd => ?_⟩
      · rw [scrubWords]
        cases t[planeBase + w]? with
        | none => rfl
        | some check => exact if_pos hcover
      · refine ⟨.inl, fun hD => hD.elim id ?_⟩
        rintro ⟨rfl, hw'⟩
        obtain ⟨base', len', planeBase', planeLen', hspans', -, hcover', -, -⟩ := hd
        rw [hspans] at hspans'
        cases hspans'
        rcases List.mem_cons.mp hw' with rfl | hw'
        · omega
        · have := hhead w' hw'
          omega

/-- **The regions of an artifact**: a scrub goes through them all, and reports nothing only if it
has changed nothing. -/
theorem Progress.regions (hparse : WireView.parse bits v.bytes = .ok v) (hapart : Apart bits v)
    {is done : List ℕ} (hnodup : is.Nodup) (hfresh : ∀ i ∈ is, i ∉ done)
    (h : Progress bits v (fun i _ => i ∈ done) t) (anyPlane : Bool) (total : EccReport) :
    ∃ t' report, scrubRegions bits is anyPlane (t, total) = (t', report) ∧
      Progress bits v (fun i _ => i ∈ done ∨ i ∈ is) t' ∧ (report = none → t' = t) ∧
      (anyPlane = true → report ≠ none) := by
  induction is generalizing t done anyPlane total with
  | nil =>
    refine ⟨t, _, rfl, h.congr fun _ _ _ _ _ => by simp, fun _ => rfl, ?_⟩
    rintro rfl
    simp
  | cons i is ih =>
    obtain ⟨hi, hnodup⟩ := List.nodup_cons.mp hnodup
    have hview := h.sameHeader hapart
    have hread := WireView.parse_congr hparse h.length hview.header
    have hskip (j : ℕ) (hj : j ∈ is) : j ∉ i :: done := by
      rw [List.mem_cons, not_or]
      exact ⟨fun he => hi (he ▸ hj), hfresh j (List.mem_cons_of_mem _ hj)⟩
    rw [scrubRegions, hread]
    simp only [hview.scrubSpans]
    cases hspans : scrubSpans bits v i with
    | none =>
      have hnext : Progress bits v (fun j _ => j ∈ i :: done) t := by
        refine h.congr fun j w pos check hd => ?_
        rw [List.mem_cons]
        refine ⟨.inr, fun hj => hj.resolve_left ?_⟩
        rintro rfl
        obtain ⟨_, _, _, _, hsome, -⟩ := hd
        rw [hspans] at hsome
        cases hsome
      obtain ⟨t', report, hrun, hprogress, hnone, hany⟩ := ih hnodup hskip hnext anyPlane total
      refine ⟨t', report, hrun, hprogress.congr fun j _ _ _ _ => ?_, hnone, hany⟩
      simp only [List.mem_cons]
      tauto
    | some spans =>
      obtain ⟨base, len, planeBase, planeLen⟩ := spans
      have hwords : ∀ w ∈ List.range ((len + 7) / 8), 8 * w < len := by
        intro w hw
        have hw := List.mem_range.mp hw
        omega
      obtain ⟨t₁, total₁, hscrub, hprogress₁⟩ := h.words hapart hspans List.pairwise_lt_range hwords
        (fun _ _ => hfresh i List.mem_cons_self) total
      have hnext : Progress bits v (fun j _ => j ∈ i :: done) t₁ := by
        refine hprogress₁.congr fun j w pos check hd => ?_
        rw [List.mem_cons]
        constructor
        · rintro (hj | ⟨rfl, -⟩)
          · exact .inr hj
          · exact .inl rfl
        · rintro (rfl | hj)
          · obtain ⟨base', len', planeBase', planeLen', hspans', hw, -, -, -⟩ := hd
            rw [hspans] at hspans'
            cases hspans'
            exact .inr ⟨rfl, List.mem_range.mpr (by omega)⟩
          · exact .inl hj
      obtain ⟨t', report, hrun, hprogress, -, hany⟩ := ih hnodup hskip hnext true total₁
      refine ⟨t', report, by simp only [hscrub, hrun], hprogress.congr fun j _ _ _ _ => ?_,
        fun hnone => absurd hnone (hany rfl), fun _ => hany rfl⟩
      simp only [List.mem_cons]
      tauto

/-- A word that a scrub decodes belongs to a region of the directory. -/
theorem Decoded.region_lt (h : Decoded bits v i w pos check) : i < v.regionCount := by
  obtain ⟨base, len, planeBase, planeLen, hspans, -⟩ := h
  obtain ⟨r, c, hr, -⟩ := scrubSpans_eq_some.mp hspans
  rw [WireView.regionAt] at hr
  split at hr
  · cases hr
  next hi => exact not_le.mp hi

/-- **A scrub repairs every word**, and reports nothing only if it has changed nothing. -/
theorem scrub_progress (hparse : WireView.parse bits v.bytes = .ok v) (hapart : Apart bits v) :
    Progress bits v (fun _ _ => True) (scrub bits v.bytes).1 ∧
      ((scrub bits v.bytes).2 = none → (scrub bits v.bytes).1 = v.bytes) := by
  have hstart : Progress bits v (fun i _ => i ∈ ([] : List ℕ)) v.bytes :=
    (Progress.start v).congr fun _ _ _ _ _ => by simp
  obtain ⟨t', report, hrun, hprogress, hnone, -⟩ := hstart.regions hparse hapart
    (List.nodup_range (n := v.regionCount)) (fun _ _ => List.not_mem_nil) false ⟨0, 0, 0⟩
  have hscrub : scrub bits v.bytes = (t', report) := by
    rw [scrub, hparse]
    exact hrun
  rw [hscrub]
  refine ⟨hprogress.congr fun i w pos check hd => ?_, hnone⟩
  simp [List.mem_range, hd.region_lt]

/-- The words of scrubbed bytes need no repair. -/
theorem Progress.settled (h : Progress bits v (fun _ _ => True) t) (hapart : Apart bits v)
    (hd : Decoded bits v i w pos check) (q : ℕ) : ¬Rewrites t pos check q := by
  have hpos := hd.inside.1
  -- every byte of the word is the repaired one
  have hbyte : ∀ q, pos ≤ q → q < pos + 8 → byteAt t q = repairedByte v.bytes pos check q := by
    intro q hlo hhi
    by_cases hr : Rewrites v.bytes pos check q
    · exact h.rewritten i w pos check q trivial hd hr
    · have hsame : repairedByte v.bytes pos check q = byteAt v.bytes q := by
        by_contra hne
        exact hr ⟨hlo, hhi, hne⟩
      rw [hsame]
      apply h.kept
      intro i' w' pos' check' _ hd' hr'
      obtain ⟨rfl, rfl⟩ := (hapart i' w' pos' check' q hd' hr').2.2 i w pos check hd
        (.inl ⟨hlo, hhi⟩)
      obtain ⟨rfl, rfl⟩ := hd.functional hd'
      exact hr hr'
  have hcheck : byteAt t check = byteAt v.bytes check := by
    apply h.kept
    intro i' w' pos' check' _ hd' hr'
    have hno := (hapart i' w' pos' check' check hd' hr').2
    obtain ⟨rfl, rfl⟩ := hno.2 i w pos check hd (.inr rfl)
    obtain ⟨rfl, rfl⟩ := hd.functional hd'
    exact hno.1 rfl
  have hword : wordAt t pos = repaired v.bytes pos check :=
    wordAt_eq (h.length ▸ hpos) fun j hj => by
      rw [hbyte _ (by omega) (by omega), repairedByte, Nat.add_sub_cancel_left]
  have hagain : repaired t pos check = wordAt t pos := by
    rw [repaired, hcheck, hword]
    exact repaired_again _ _ _
  rintro ⟨hlo, hhi, hne⟩
  apply hne
  rw [repairedByte, hagain, toBytes_wordAt (h.length ▸ hpos), byteAt_slice (by omega),
    Nat.add_sub_cancel' hlo]

/-! ## Scrubbing twice -/

/-- What a scrub of any bytes is to do: no index is out of range, nothing is changed when nothing is
reported, and a second scrub changes nothing more. -/
def Settles (bits : ℕ) (bytes : List Byte) : Prop :=
  ∃ t report, scrubIndexed bits bytes = some (t, report) ∧ (report = none → t = bytes) ∧
    (report ≠ none → ∃ report', scrubIndexed bits t = some (t, report'))

/-- A scrub of bytes whose words need no repair changes nothing. -/
theorem scrub_eq_self (hparse : WireView.parse bits v.bytes = .ok v)
    (hclean : ∀ i w pos check q, Decoded bits v i w pos check → ¬Rewrites v.bytes pos check q) :
    (scrub bits v.bytes).1 = v.bytes := by
  obtain ⟨hprogress, -⟩ := scrub_progress hparse fun i w pos check q hd hr =>
    absurd hr (hclean i w pos check q hd)
  apply ext_byteAt hprogress.length
  intro q
  exact hprogress.kept q fun i w pos check _ hd => hclean i w pos check q hd

/-- Scrubbed bytes are settled: a second scrub changes none of them. -/
theorem scrub_scrub (hparse : WireView.parse bits v.bytes = .ok v) (hapart : Apart bits v) :
    (scrub bits (scrub bits v.bytes).1).1 = (scrub bits v.bytes).1 := by
  obtain ⟨hprogress, -⟩ := scrub_progress hparse hapart
  have hsame := hprogress.sameHeader hapart
  have hread := WireView.parse_congr hparse hprogress.length hsame.header
  apply scrub_eq_self (v := { v with bytes := (scrub bits v.bytes).1 }) hread
  intro i w pos check q hd
  exact hprogress.settled hapart (hsame.decoded.mp hd) q

/-- **A scrub of any bytes in which no repair disturbs what is read elsewhere** settles them. -/
theorem scrub_settles (h : Undisturbed bits bytes) : Settles bits bytes := by
  refine ⟨(scrub bits bytes).1, (scrub bits bytes).2, scrubIndexed_eq bytes, ?_, fun _ => ?_⟩
  · cases hparse : WireView.parse bits bytes with
    | error e =>
      intro _
      rw [scrub, hparse]
    | ok v =>
      obtain rfl := (WireView.parse_ok hparse).1
      exact (scrub_progress hparse (h v hparse)).2
  · refine ⟨(scrub bits (scrub bits bytes).1).2, ?_⟩
    rw [scrubIndexed_eq]
    refine congrArg some (Prod.ext ?_ rfl)
    cases hparse : WireView.parse bits bytes with
    | error e =>
      have hself : (scrub bits bytes).1 = bytes := by rw [scrub, hparse]
      rw [hself, hself]
    | ok v =>
      obtain rfl := (WireView.parse_ok hparse).1
      exact scrub_scrub hparse (h v hparse)

/-- The words of the artifact with one protected region and a flipped bit. -/
theorem flipped_undisturbed : Undisturbed 64 (flipBit oneRegionBytes 144 0) := by
  intro v hparse
  have hview : (WireView.parse 64 (flipBit oneRegionBytes 144 0)).toOption.map
      (fun v => (v.bytes, v.regionCount, v.prologueDisagreed, v.directoryDisagreed)) =
        some (flipBit oneRegionBytes 144 0, 2, false, false) := by decide +kernel
  obtain ⟨bytes, count, prologueOff, directoryOff⟩ := v
  rw [hparse] at hview
  cases hview
  have honly (i w pos check : ℕ)
      (hd : Decoded 64 ⟨flipBit oneRegionBytes 144 0, 2, false, false⟩ i w pos check) :
      i = 0 ∧ w = 0 ∧ pos = 144 ∧ check = 152 := by
    have hi : i < 2 := hd.region_lt
    obtain ⟨base, len, planeBase, planeLen, hspans, hw, -, rfl, rfl⟩ := hd
    obtain rfl | rfl : i = 0 ∨ i = 1 := by omega
    · have hat : scrubSpans 64 ⟨flipBit oneRegionBytes 144 0, 2, false, false⟩ 0 =
          some (144, 8, 152, 8) := by decide +kernel
      rw [hat] at hspans
      cases hspans
      omega
    · have hat : scrubSpans 64 ⟨flipBit oneRegionBytes 144 0, 2, false, false⟩ 1 = none := by
        decide +kernel
      rw [hat] at hspans
      cases hspans
  intro i w pos check q hd hr
  obtain ⟨rfl, rfl, rfl, rfl⟩ := honly i w pos check hd
  have hend : (⟨flipBit oneRegionBytes 144 0, 2, false, false⟩ : WireView).headerEnd = 144 := rfl
  refine ⟨hend ▸ hr.1, fun hq => ?_, fun i' w' pos' check' hd' _ => ?_⟩
  · have := hr.2.1
    omega
  · obtain ⟨rfl, rfl, -, -⟩ := honly i' w' pos' check' hd'
    exact ⟨rfl, rfl⟩

/-- **A flipped bit of the payload** is no obstacle. -/
theorem flipped_settles : Settles 64 (flipBit oneRegionBytes 144 0) :=
  scrub_settles flipped_undisturbed

/-- An artifact whose protected region is its own prologue: the third copies of the prologue and of
the offset of the region are damaged, and so is the word of the first. -/
def selfCoveringBytes : List Byte :=
  let covering := ((oneRegionBytes.set 52 0).set 84 0).set 116 0
  let damaged := covering.set 16 (byteAt covering 16 ^^^ 1)
  damaged.set 152 (checkByte (wordAt covering 0 ^^^ 1))

/-- **A repair of the prologue** may leave bytes that no longer parse: then nothing is reported
although a byte has changed. -/
theorem selfCovering_unsettled : ¬Settles 64 selfCoveringBytes := by
  rintro ⟨t, report, hrun, hnone, -⟩
  rw [scrubIndexed_eq] at hrun
  have hscrub : (scrub 64 selfCoveringBytes).2 = none ∧
      (scrub 64 selfCoveringBytes).1 ≠ selfCoveringBytes := by decide +kernel
  rw [Option.some.inj hrun] at hscrub
  exact hscrub.2 (hnone hscrub.1)

end KeleusmaWire
