import Keleusma.Wire.Protected

/-!
# Reading back what was built

Whatever a builder arrives at, an artifact that `finish` returns is read back: it parses, its
copies agree, every region is found with its payload and every protected region with its plane,
and no word of a protected region is reported as damaged (`finish_roundTrip`).
-/

namespace KeleusmaWire

open Overflow

variable {bits : ℕ} {b : WireBuilder} {bytes : List Byte} {rs : List Region}

/-! ## Scanning a region against its plane -/

/-- A word whose check byte is its own decodes as clean. -/
theorem planeWord_clean {parity data : List Byte} {i : ℕ} (hdata : i * 8 + 8 ≤ data.length)
    (hlt : data.length < 2 ^ bits) (hparity : parity[i]? = some (checkByte (wordAt data (i * 8)))) :
    planeWord bits parity data i = some (.clean (wordAt data (i * 8))) := by
  have hmul : checkedMul bits i 8 = some (i * 8) := checkedMul_eq_some.mpr ⟨by omega, rfl⟩
  rw [planeWord, hmul]
  simp only [Option.bind_eq_bind, Option.bind_some, u64At_eq hdata, hparity]
  rw [← wordAt, decodeWord_clean]
  rfl

/-- Counting clean words. -/
theorem foldl_count_clean {is : List ℕ} {status : ℕ → Option WordStatus}
    (h : ∀ i ∈ is, ∃ v, status i = some (.clean v)) (report : EccReport) :
    is.foldl (fun report i => report.count (status i)) report =
      { report with words := report.words + is.length } := by
  induction is generalizing report with
  | nil => rfl
  | cons i is ih =>
    obtain ⟨v, hv⟩ := h i List.mem_cons_self
    rw [List.foldl_cons, hv, ih fun j hj => h j (List.mem_cons_of_mem _ hj), EccReport.count,
      List.length_cons, Nat.add_assoc, Nat.add_comm 1]

/-- **A protected region scans as clean.** -/
theorem planeScan_clean {e p : Region} (h : Protects bytes e p) (hlt : bytes.length < 2 ^ bits)
    (he : e.stop ≤ bytes.length) :
    ∃ words, planeScan bits (slice bytes p.start p.length) (slice bytes e.start e.length) =
      ⟨words, 0, 0⟩ := by
  have hlen : (slice bytes e.start e.length).length = e.length := length_slice he
  have hwhole : e.length = 8 * e.wordLength.toNat := rfl
  have hstop : e.stop = e.start + e.length := rfl
  rw [planeScan]
  refine ⟨_, foldl_count_clean (fun i hi => ?_) ⟨0, 0, 0⟩⟩
  have hi := List.mem_range.mp hi
  rw [hlen] at hi
  have hword : wordAt (slice bytes e.start e.length) (i * 8) = wordAt bytes (e.start + 8 * i) := by
    rw [wordAt, wordAt, slice, slice, slice, List.drop_take, List.drop_drop, List.take_take,
      Nat.min_eq_left (by omega), Nat.mul_comm 8 i]
  refine ⟨_, planeWord_clean ?_ ?_ ?_⟩
  · omega
  · omega
  · rw [hword, getElem?_slice, if_pos, h.parity i (by omega)]
    have := h.length
    omega

/-! ## Scanning all regions -/

/-- The entry is protected: it is not a plane, and has one. -/
def Region.isProtected (r : Region) : Bool := !r.isEccPlane && r.hasEcc

/-- No word was found to be damaged. -/
def Undamaged (total : Option EccReport) : Prop :=
  ∀ report, total = some report → report.corrected = 0 ∧ report.uncorrectable = 0

theorem foldl_range {α β : Type} (l : List α) (f : β → Option α → β) (t : β) :
    (List.range l.length).foldl (fun t i => f t l[i]?) t = l.foldl (fun t x => f t (some x)) t := by
  induction l generalizing t with
  | nil => rfl
  | cons x l ih =>
    rw [List.length_cons, List.range_succ_eq_map, List.foldl_cons, List.foldl_map]
    exact ih _

/-- One region of the scan. -/
def scanStep (usizeBits : ℕ) (v : WireView) (total : Option EccReport) :
    Option Region → Option EccReport
  | none => total
  | some r =>
    if r.isEccPlane || !r.hasEcc then total
    else
      match v.verifyRegion usizeBits r with
      | none => total
      | some rep => some (WireView.addReport (total.getD ⟨0, 0, 0⟩) rep)

theorem Readable.verifyAll (h : Readable bits bytes rs) {v : WireView} (hb : v.bytes = bytes)
    (hc : v.regionCount = rs.length) :
    v.verifyAll bits = rs.foldl (fun total r => scanStep bits v total (some r)) none := by
  rw [← foldl_range, WireView.verifyAll, hc]
  congr 1
  funext total i
  rw [h.regionAt hb hc]
  rfl

/-- The scan of regions that are undamaged where they are protected. -/
theorem scan_undamaged {v : WireView} {l : List Region}
    (h : ∀ r ∈ l, r.isProtected → ∃ words, v.verifyRegion bits r = some ⟨words, 0, 0⟩)
    {total : Option EccReport} (htotal : Undamaged total) :
    Undamaged (l.foldl (fun total r => scanStep bits v total (some r)) total) ∧
      (l.foldl (fun total r => scanStep bits v total (some r)) total).isSome =
        (total.isSome || l.any Region.isProtected) := by
  induction l generalizing total with
  | nil => exact ⟨htotal, by simp⟩
  | cons r l ih =>
    have htail := fun s hs => h s (List.mem_cons_of_mem r hs)
    rw [List.foldl_cons, List.any_cons]
    cases hr : r.isProtected with
    | false =>
      have hskip : scanStep bits v total (some r) = total := by
        rw [Region.isProtected] at hr
        refine if_pos ?_
        rw [← Bool.not_not r.isEccPlane, ← Bool.not_and, hr]
        rfl
      rw [hskip, Bool.false_or]
      exact ih htail htotal
    | true =>
      obtain ⟨words, hverify⟩ := h r List.mem_cons_self hr
      have hscan : scanStep bits v total (some r) =
          some (WireView.addReport (total.getD ⟨0, 0, 0⟩) ⟨words, 0, 0⟩) := by
        rw [Region.isProtected] at hr
        rw [scanStep, if_neg, hverify]
        rw [← Bool.not_not r.isEccPlane, ← Bool.not_and, hr]
        exact Bool.false_ne_true
      have hundamaged : Undamaged (scanStep bits v total (some r)) := by
        intro report hreport
        rw [hscan] at hreport
        cases hreport
        cases total with
        | none => exact ⟨rfl, rfl⟩
        | some t => exact htotal t rfl
      obtain ⟨h₁, h₂⟩ := ih htail hundamaged
      refine ⟨h₁, ?_⟩
      rw [h₂, hscan, Bool.true_or, Bool.or_true]
      rfl

namespace Container

/-- The plane that is found for a protected entry, and that protects it. -/
theorem plane (hb : b.Valid) (h : Container bits b bytes rs) {e : Region} (he : e ∈ rs)
    (hprot : e.isProtected) : ∃ p ∈ rs, p.isEccPlane ∧
      (rs.find? fun c => c.isEccPlane && c.covers == e.kind) = some p ∧ Protects bytes e p := by
  rw [Region.isProtected, Bool.and_eq_true, Bool.not_eq_true'] at hprot
  obtain ⟨r, hr, hdata | ⟨eccKind, -, hplane⟩⟩ := h.origin he
  · have hsome := (data_flags hb hr hdata).2
    rw [hprot.2] at hsome
    obtain ⟨eccKind, hecc⟩ := Option.isSome_iff_exists.mp hsome.symm
    obtain ⟨p, hp, hdesc⟩ := h.planeEntry hr hecc
    have hkind : e.kind = r.kind := hdata.kind
    exact ⟨p, hp, (plane_flags hdesc).1, hkind ▸ h.find_plane hb hr hecc hp hdesc,
      protects hdata hdesc⟩
  · rw [(plane_flags hplane).1] at hprot
    cases hprot.1

/-- Some entry is protected exactly if some region of the builder is. -/
theorem any_protected (hb : b.Valid) (h : Container bits b bytes rs) :
    rs.any Region.isProtected = b.regions.any fun r => r.eccKind.isSome := by
  rw [Bool.eq_iff_iff, List.any_eq_true, List.any_eq_true]
  constructor
  · rintro ⟨e, he, hprot⟩
    rw [Region.isProtected, Bool.and_eq_true, Bool.not_eq_true'] at hprot
    obtain ⟨r, hr, hdata | ⟨eccKind, -, hplane⟩⟩ := h.origin he
    · exact ⟨r, hr, (data_flags hb hr hdata).2 ▸ hprot.2⟩
    · rw [(plane_flags hplane).1] at hprot
      cases hprot.1
  · rintro ⟨r, hr, hsome⟩
    obtain ⟨e, he, hdata⟩ := h.entry hr
    obtain ⟨hplane, hecc⟩ := data_flags hb hr hdata
    refine ⟨e, he, ?_⟩
    rw [Region.isProtected, hplane, hecc, hsome]
    rfl

/-- **A scan of a container reports no damaged word.** -/
theorem verifyAll (hb : b.Valid) (h : Container bits b bytes rs) {v : WireView}
    (hv : v.bytes = bytes) (hc : v.regionCount = rs.length) : Undamaged (v.verifyAll bits) ∧
      (v.verifyAll bits).isSome = b.regions.any fun r => r.eccKind.isSome := by
  have hread := h.readable
  rw [hread.verifyAll hv hc, ← h.any_protected hb, ← Bool.false_or (rs.any Region.isProtected)]
  refine scan_undamaged (fun e he hprot => ?_) nofun
  obtain ⟨p, hp, -, hfind, hprotects⟩ := h.plane hb he hprot
  have hebytes := hread.regionBytes hv (hread.inside e he).2
  have hpbytes := hread.regionBytes hv (hread.inside p hp).2
  obtain ⟨words, hscan⟩ := planeScan_clean hprotects hread.length_lt (hread.inside e he).2
  refine ⟨words, ?_⟩
  rw [WireView.verifyRegion, WireView.eccFor, hread.planeOf hv hc, hfind]
  simp only [Option.bind_eq_bind, Option.bind_some, hpbytes, hebytes, Except.toOption, ← hscan]
  rfl

end Container

/-! ## The round trip -/

/-- An artifact that `finish` returns parses, every region is found with its payload, and no region
is found of a kind that is not in use. -/
theorem finish_regions (hb : b.Reachable) (h : b.finish bits = .ok bytes) :
    ∃ v, WireView.parse bits bytes = .ok v ∧
      (∀ r ∈ b.regions, ∃ e, v.findRegion r.kind = some e ∧
        v.regionBytes bits e = .ok (padOut r.bytes)) ∧
      ∀ kind, b.kindInUse kind = false → v.findRegion kind = none := by
  obtain ⟨rs, hc⟩ := finish_container hb h
  have hread := hc.readable
  refine ⟨Readable.view bytes rs, hread.parse, fun r hr => ?_, fun kind hkind => ?_⟩
  · obtain ⟨e, he, hdata⟩ := hc.entry hr
    have hkind : e.kind = r.kind := hdata.kind
    refine ⟨e, ?_, ?_⟩
    · rw [hread.findRegion rfl rfl, ← hkind]
      exact hc.find_entry he
    · rw [hread.regionBytes rfl (hread.inside e he).2, hdata.payload]
      rfl
  · rw [hread.findRegion rfl rfl, List.find?_eq_none]
    intro e he hfound
    obtain rfl : e.kind = kind := beq_iff_eq.mp hfound
    obtain ⟨r, hr, hdata | ⟨eccKind, hecc, hplane⟩⟩ := hc.origin he
    · have hkind' : e.kind = r.kind := hdata.kind
      rw [WireBuilder.kindInUse, List.any_eq_false] at hkind
      exact hkind r hr (by rw [hkind', beq_self_eq_true, Bool.true_or])
    · have hkind' : e.kind = eccKind := hplane.kind
      rw [WireBuilder.kindInUse, List.any_eq_false] at hkind
      exact hkind r hr (by rw [hkind', hecc, beq_self_eq_true, Bool.or_true])

/-- **The round trip**: an artifact that `finish` returns for a reachable builder parses without
need of a scrub; it has as many regions as there are regions and planes; every region is found with
its flags and its payload, padded to a whole word; the plane of every protected region is found;
and a scan reports no damaged word. -/
theorem finish_roundTrip (hb : b.Reachable) (h : b.finish bits = .ok bytes) :
    ∃ v, WireView.parse bits bytes = .ok v ∧ v.needsScrub = false ∧
      v.regionCount = b.regions.length + b.regions.countP (fun r => r.eccKind.isSome) ∧
      (∀ r ∈ b.regions, ∃ e, v.findRegion r.kind = some e ∧ e.flags = r.flags ∧
        v.regionBytes bits e =
          .ok (r.bytes ++ List.replicate ((8 - r.bytes.length % 8) % 8) 0) ∧
        (r.eccKind.isSome → ∃ plane, v.eccFor bits e = some plane ∧
          ∀ w < (r.bytes.length + 7) / 8, plane[w]? = (parityOf r.bytes)[w]?)) ∧
      ((v.verifyAll bits).isSome = b.regions.any fun r => r.eccKind.isSome) ∧
      ∀ report, v.verifyAll bits = some report → report.corrected = 0 ∧ report.uncorrectable = 0 :=
        by
  obtain ⟨rs, hc⟩ := finish_container hb h
  have hread := hc.readable
  have hvalid := hb.valid
  obtain ⟨hclean, hsome⟩ := hc.verifyAll hvalid (v := Readable.view bytes rs) rfl rfl
  refine ⟨Readable.view bytes rs, hread.parse, ?_, ?_, fun r hr => ?_, hsome, hclean⟩
  · have hprologue : (List.range prologueBytes).any (disagrees bytes 0 prologueBytes) = false :=
      hc.prologue.agrees
    have hdirectory := hc.directory.agrees
    rw [length_entries] at hdirectory
    rw [WireView.needsScrub, Readable.view, hprologue, hdirectory]
    rfl
  · have hlen : rs.length = b.emits.length := (List.Forall₂.length_eq hc.describes).symm
    show rs.length = b.emitCount
    rw [hlen, ← b.length_kinds, ← b.map_kind_emits, List.length_map]
  · obtain ⟨e, he, hdata⟩ := hc.entry hr
    have hkind : e.kind = r.kind := hdata.kind
    refine ⟨e, ?_, hdata.flags, ?_, fun hecc => ?_⟩
    · rw [hread.findRegion rfl rfl, ← hkind]
      exact hc.find_entry he
    · rw [hread.regionBytes rfl (hread.inside e he).2, hdata.payload]
      rfl
    · obtain ⟨eccKind, hecc⟩ := Option.isSome_iff_exists.mp hecc
      obtain ⟨p, hp, hdesc⟩ := hc.planeEntry hr hecc
      have hpbytes := hread.regionBytes (v := Readable.view bytes rs) rfl (hread.inside p hp).2
      refine ⟨padOut (parityOf r.bytes), ?_, fun w hw => ?_⟩
      · rw [WireView.eccFor, hread.planeOf rfl rfl, hkind, hc.find_plane hvalid hr hecc hp hdesc]
        simp only [Option.bind_eq_bind, Option.bind_some, hpbytes, hdesc.payload]
        rfl
      · rw [padOut, List.getElem?_append_left]
        rwa [length_parityOf]

/-- A builder with one protected region of one byte. -/
def oneRegion : WireBuilder :=
  (((WireBuilder.new.region 1 0).2.push 0 [0xAB]).2.protect 0 0x8001).2

theorem oneRegion_reachable : oneRegion.Reachable := .protect (.push (.region .new rfl rfl))

/-- The artifact that it gives. -/
def oneRegionBytes : List Byte := (oneRegion.finish 64).toOption.getD []

theorem oneRegion_finish : oneRegion.finish 64 = .ok oneRegionBytes := by
  have hok : (oneRegion.finish 64).toOption.isSome = true := by decide +kernel
  rw [oneRegionBytes]
  cases h : oneRegion.finish 64 with
  | error e =>
    rw [h] at hok
    cases hok
  | ok bytes => rfl

/-- The builder with one protected region is read back. -/
theorem oneRegion_roundTrip : ∃ v, WireView.parse 64 oneRegionBytes = .ok v ∧
    v.needsScrub = false ∧ v.regionCount = 2 := by
  obtain ⟨v, hparse, hscrub, hcount, -⟩ := finish_roundTrip oneRegion_reachable oneRegion_finish
  exact ⟨v, hparse, hscrub, hcount⟩

end KeleusmaWire
