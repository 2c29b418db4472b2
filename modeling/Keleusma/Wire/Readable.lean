import Keleusma.Wire.Build
import Keleusma.Wire.View

/-!
# Readable containers

The bytes of a container are readable when the votes over the three copies give a prologue and a
directory whose entries are in order, whatever the copies themselves say. A readable container
parses, and its directory is read back entry by entry (`Readable.parse`, `Readable.regionAt`).
-/

namespace KeleusmaWire

open Overflow

/-! ## Prologue and entries -/

theorem byteAt_eq_getElem {b : List Byte} {i : ℕ} (h : i < b.length) : byteAt b i = b[i] :=
  List.getD_eq_getElem _ _ h

/-- A list of bytes that is read byte by byte. -/
theorem map_byteAt {b : List Byte} {f : ℕ → Byte} (h : ∀ i < b.length, f i = byteAt b i) :
    (List.range b.length).map f = b := by
  apply List.ext_getElem
  · simp
  · intro i h₁ h₂
    rw [List.getElem_map, List.getElem_range, h i h₂, byteAt_eq_getElem h₂]

@[simp] theorem length_prologueOf (n : BitVec 16) : (prologueOf n).length = 16 := rfl

@[simp] theorem length_entryBytes (r : Region) : (entryBytes r).length = 16 := rfl

/-- The prologue that the encoder writes is in order. -/
theorem parsePrologue_prologueOf {n : BitVec 16} (hn : n.toNat ≤ maxRegions) :
    WireView.parsePrologue (prologueOf n) = .ok n := by
  have hmagic : u32At (prologueOf n) 0 = some magic := u32At_of_slice rfl
  have hbom : u16At (prologueOf n) 4 = some bom := u16At_of_slice rfl
  have hversion : u16At (prologueOf n) 6 = some formatVersion := u16At_of_slice rfl
  have hcheck : u32At (prologueOf n) 12 = some (crc32 ((prologueOf n).take 12)) :=
    u32At_of_slice rfl
  have hcount : u16At (prologueOf n) 8 = some n := u16At_of_slice rfl
  simp only [WireView.parsePrologue, hmagic, hbom, hversion, hcheck, hcount, ne_eq,
    not_true_eq_false, if_false, if_neg (not_lt.mpr hn)]

/-- The entry that the encoder writes is read back. -/
theorem readEntry (r : Region) : (do
    return (⟨← u16At (entryBytes r) 0, ← u16At (entryBytes r) 2, ← u32At (entryBytes r) 4,
      ← u32At (entryBytes r) 8, ← u16At (entryBytes r) 12⟩ : Region)) = some r := by
  have hkind : u16At (entryBytes r) 0 = some r.kind := u16At_of_slice rfl
  have hflags : u16At (entryBytes r) 2 = some r.flags := u16At_of_slice rfl
  have hoffset : u32At (entryBytes r) 4 = some r.wordOffset := u32At_of_slice rfl
  have hlength : u32At (entryBytes r) 8 = some r.wordLength := u32At_of_slice rfl
  have hcovers : u16At (entryBytes r) 12 = some r.covers := u16At_of_slice rfl
  simp only [hkind, hflags, hoffset, hlength, hcovers]
  rfl

theorem length_entries (rs : List Region) : (rs.flatMap entryBytes).length = rs.length * 16 := by
  induction rs with
  | nil => rfl
  | cons r rs ih =>
    rw [List.flatMap_cons, List.length_append, ih, length_entryBytes, List.length_cons]
    omega

/-- An entry of the directory, byte by byte. -/
theorem byteAt_entries {rs : List Region} {i o : ℕ} {r : Region} (hr : rs[i]? = some r)
    (ho : o < 16) : byteAt (rs.flatMap entryBytes) (i * 16 + o) = byteAt (entryBytes r) o := by
  induction rs generalizing i with
  | nil => simp at hr
  | cons s rs ih =>
    rw [List.flatMap_cons]
    cases i with
    | zero =>
      obtain rfl := Option.some.inj hr
      rw [Nat.zero_mul, Nat.zero_add, byteAt, byteAt, List.getD_append _ _ _ _ ho]
    | succ i =>
      have hlen : (entryBytes s).length ≤ (i + 1) * 16 + o := by
        rw [length_entryBytes]
        omega
      rw [byteAt, List.getD_append_right _ _ _ _ hlen, ← ih hr, byteAt, length_entryBytes]
      congr 1
      omega

/-! ## Spans -/

namespace Region

/-- Where the payload starts, in bytes. -/
def start (r : Region) : ℕ := 8 * r.wordOffset.toNat

/-- The length of the payload in bytes. -/
def length (r : Region) : ℕ := 8 * r.wordLength.toNat

/-- Where the payload ends. -/
def stop (r : Region) : ℕ := r.start + r.length

variable {bits : ℕ} {r : Region}

theorem byteOffset_eq (h : r.stop < 2 ^ bits) : r.byteOffset bits = some r.start := by
  have hlt : 8 * r.wordOffset.toNat + 8 * r.wordLength.toNat < 2 ^ bits := h
  rw [byteOffset, checkedMul_eq_some, Nat.mod_eq_of_lt (by omega), word, start]
  omega

theorem byteLength_eq (h : r.stop < 2 ^ bits) : r.byteLength bits = some r.length := by
  have hlt : 8 * r.wordOffset.toNat + 8 * r.wordLength.toNat < 2 ^ bits := h
  rw [byteLength, checkedMul_eq_some, Nat.mod_eq_of_lt (by omega), word, length]
  omega

theorem checkedAdd_eq (h : r.stop < 2 ^ bits) : checkedAdd bits r.start r.length = some r.stop :=
  checkedAdd_eq_some.mpr ⟨h, rfl⟩

end Region

/-! ## Readable containers -/

/-- The number of regions as the prologue has it. -/
def countOf (rs : List Region) : BitVec 16 := BitVec.ofNat 16 rs.length

/-- **A readable container**: the votes give the prologue and the directory of the regions, no two
of which have one kind, and every payload lies between the header and the end. -/
structure Readable (usizeBits : ℕ) (bytes : List Byte) (rs : List Region) : Prop where
  count : rs.length ≤ maxRegions
  length_lt : bytes.length < 2 ^ usizeBits
  prologue : ∀ i < prologueBytes,
    voted bytes 0 prologueBytes i = byteAt (prologueOf (countOf rs)) i
  directory : ∀ i < rs.length * 16,
    voted bytes directoryOffset (rs.length * 16) i = byteAt (rs.flatMap entryBytes) i
  kinds : (rs.map Region.kind).Nodup
  header : 48 * rs.length + 48 ≤ bytes.length
  inside : ∀ r ∈ rs, 48 * rs.length + 48 ≤ r.start ∧ r.stop ≤ bytes.length

namespace Readable

variable {bits : ℕ} {bytes : List Byte} {rs : List Region}

/-- The view of a readable container. -/
def view (bytes : List Byte) (rs : List Region) : WireView where
  bytes := bytes
  regionCount := rs.length
  prologueDisagreed := (List.range prologueBytes).any (disagrees bytes 0 prologueBytes)
  directoryDisagreed :=
    (List.range (rs.length * 16)).any (disagrees bytes directoryOffset (rs.length * 16))

theorem toNat_countOf (h : Readable bits bytes rs) : (countOf rs).toNat = rs.length := by
  have := h.count
  rw [countOf, BitVec.toNat_ofNat, Nat.mod_eq_of_lt]
  exact lt_of_le_of_lt this (by decide)

/-- **The directory is read back entry by entry.** -/
theorem regionAt (h : Readable bits bytes rs) {v : WireView} (hb : v.bytes = bytes)
    (hc : v.regionCount = rs.length) (i : ℕ) : v.regionAt i = rs[i]? := by
  rw [WireView.regionAt, hc]
  split_ifs with hi
  · rw [List.getElem?_eq_none hi]
  · obtain ⟨r, hr⟩ : ∃ r, rs[i]? = some r := ⟨_, List.getElem?_eq_getElem (not_le.mp hi)⟩
    have hentry : (List.range dirEntryBytes).map (v.dirByte i) = entryBytes r := by
      refine map_byteAt (b := entryBytes r) fun o ho => ?_
      have hpos : i * 16 + o < rs.length * 16 := by
        rw [length_entryBytes] at ho
        omega
      rw [WireView.dirByte, WireView.dirSpan, hb, hc]
      exact (h.directory _ hpos).trans (byteAt_entries hr ho)
    rw [hr, hentry]
    exact readEntry r

/-- **The payload of a region of the directory.** -/
theorem regionBytes (h : Readable bits bytes rs) {v : WireView} (hb : v.bytes = bytes) {r : Region}
    (hr : r.stop ≤ bytes.length) : v.regionBytes bits r = .ok (slice bytes r.start r.length) := by
  have hlt : r.stop < 2 ^ bits := lt_of_le_of_lt hr h.length_lt
  rw [WireView.regionBytes, Region.byteOffset_eq hlt, Region.byteLength_eq hlt]
  simp only [Region.checkedAdd_eq hlt, hb, if_pos hr]

/-- Checks that all pass. -/
theorem forM_ok {is : List ℕ} {f : ℕ → Except WireError Unit} (h : ∀ i ∈ is, f i = .ok ()) :
    is.forM f = .ok () := by
  induction is with
  | nil => rfl
  | cons i is ih =>
    show (f i >>= fun _ => is.forM f) = .ok ()
    rw [h i List.mem_cons_self]
    exact ih fun j hj => h j (List.mem_cons_of_mem _ hj)

/-- The directory passes its validation. -/
theorem validateRegions (h : Readable bits bytes rs) {v : WireView} (hb : v.bytes = bytes)
    (hc : v.regionCount = rs.length) : v.validateRegions bits = .ok () := by
  refine forM_ok fun i hi => ?_
  have hi : i < rs.length := hc ▸ List.mem_range.mp hi
  have hstop := (h.inside rs[i] (List.getElem_mem hi)).2
  have hlt := lt_of_le_of_lt hstop h.length_lt
  rw [WireView.validateRegion, h.regionAt hb hc, List.getElem?_eq_getElem hi]
  simp only [Region.byteOffset_eq hlt, Region.byteLength_eq hlt, Region.checkedAdd_eq hlt, hb,
    if_neg (not_lt.mpr hstop), hc]
  refine forM_ok fun j hj => ?_
  obtain ⟨hij, hj⟩ := List.mem_range'_1.mp hj
  have hj : j < rs.length := by omega
  rw [h.regionAt hb hc, List.getElem?_eq_getElem hj]
  -- No two entries have one kind.
  have hne : rs[j].kind ≠ rs[i].kind := by
    intro heq
    have hj' : j < (rs.map Region.kind).length := by simpa using hj
    have hi' : i < (rs.map Region.kind).length := by simpa using hi
    have hkind : (rs.map Region.kind)[j] = (rs.map Region.kind)[i] := by simpa using heq
    have hji := (List.Nodup.getElem_inj_iff h.kinds).mp hkind
    omega
  exact if_neg hne

/-- **A readable container parses.** -/
theorem parse (h : Readable bits bytes rs) : WireView.parse bits bytes = .ok (view bytes rs) := by
  have hheader : headerBytes bits (countOf rs).toNat = some (48 * rs.length + 48) := by
    rw [h.toNat_countOf]
    exact headerBytes_eq_some.mpr ⟨lt_of_le_of_lt h.header h.length_lt, rfl⟩
  have hprologue : WireView.prologue bytes = prologueOf (countOf rs) :=
    map_byteAt (b := prologueOf (countOf rs)) h.prologue
  have hcount : (countOf rs).toNat ≤ maxRegions := h.toNat_countOf ▸ h.count
  have hlen : ¬bytes.length < prologueBytes * copies := by
    have := h.header
    rw [prologueBytes, copies]
    omega
  rw [WireView.parse, if_neg hlen, hprologue, parsePrologue_prologueOf hcount]
  dsimp only
  rw [hheader]
  simp only [if_neg (not_lt.mpr h.header), h.toNat_countOf]
  rw [h.validateRegions rfl rfl]
  rfl

end Readable

end KeleusmaWire
