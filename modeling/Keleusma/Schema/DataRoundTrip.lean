import Keleusma.Schema.DataRuns
import Keleusma.Schema.RoundTrip

/-!
# The round trip of the data layout

A layout that is written on its own is read back, and every index of a shared slot is resolved to
its entry, exactly when the names are in their places, no run wraps, and the counts fit in 32 bits
(`addDataLayout_iff`).
-/

namespace Keleusma.Schema

open KeleusmaWire (Byte WireBuilder WireError WireView WireRecord LawfulCodec RegionBuf RecordTable
  padOut)
open BreadthFirst Outcomes Runs

variable {bits i : ℕ} {t : DataLayoutTable} {n : Names} {l : List String}

/-! ## What a table reads as -/

/-- The tables read as the records that were written. -/
structure TableRead (bits : ℕ) (t : DataLayoutTable) (slots : List DataSlotRecord)
    (shared : List SharedSlotRecord) (priv : List PrivateCompositeRecord) (n : Names) : Prop where
  slot : ∀ i, t.slot bits i = slots[i]?
  slots_len : t.slots.len = slots.length
  sharedRecord : ∀ i, t.sharedRecord bits i = shared[i]?
  shared_len : t.sharedSlots.len = shared.length
  privateRecord : ∀ i, t.privateCompositeRecord bits i = priv[i]?
  private_len : t.privateComposite.len = priv.length
  names : NamesRead bits t.pool t.names n

variable {slots : List DataSlotRecord} {shared : List SharedSlotRecord}
  {priv : List PrivateCompositeRecord}

/-! ## Shared slots -/

/-- A shared slot as the entry that its index is resolved to. -/
def entryOf (e : SharedSlotLayout) : SharedSlotEntry := ⟨e.offset, e.kind, e.len⟩

section Shared

variable {layout : List SharedSlotLayout}

/-- **An index is resolved to its entry**, when no run wraps and the indices fit in 32 bits. -/
theorem sharedSlot_eq (h : TableRead bits t slots (sharedRecords 0 layout) priv n)
    (hrange : ∀ e ∈ layout, SlotInRange e) (hasc : ∀ p ∈ sharedPieces layout, Ascending p)
    (hlen : layout.length ≤ 2 ^ 32) (i : ℕ) :
    t.sharedSlot bits i = layout[i]?.map entryOf := by
  have hrow := (sharedRecords_inRow hrange 0).and_mem hasc
  have hfirst {j : ℕ} {r : SharedSlotRecord} {p : List SharedSlotLayout} (hr : SharedStands j r p)
      (hend : j + p.length ≤ 0 + (sharedPieces layout).flatten.length) : r.firstSlot.toNat = j := by
    rw [flatten_sharedPieces] at hend
    have hpos := hr.pos
    rw [hr.first]
    exact Nat.mod_eq_of_lt (by omega)
  by_cases hi : i < layout.length
  · obtain ⟨m, r, j, p, hm, ⟨hr, hp⟩, hj, hlast, hget, hall⟩ :=
      hrow.find (Nat.zero_le i) (by rwa [flatten_sharedPieces, Nat.zero_add])
    have hmlt := (List.getElem?_eq_some_iff.mp hm).1
    have hstart : r.firstSlot.toNat = j := by
      rw [hr.first]
      exact Nat.mod_eq_of_lt (by omega)
    have hsearch : searchLast (t.sharedRecord bits) (fun r => r.firstSlot.toNat ≤ i) 0
        (t.sharedSlots.len - 1) none = some r := by
      refine searchLast_of (m := m) ((h.sharedRecord m).trans hm) (fun k hk => ?_)
        (fun k r' hk hr' => ?_) (fun k r' hk hr' => ?_) (Nat.zero_le _) ?_
        (fun h => absurd h (by omega))
      · rw [h.sharedRecord, List.getElem?_eq_getElem (by rw [h.shared_len] at hk; omega)]
        rfl
      · obtain ⟨j', p', ⟨hs, -⟩, hend', hbefore, -⟩ := hall k r' ((h.sharedRecord k).symm.trans hr')
        rw [decide_eq_true_iff, hfirst hs hend']
        exact hbefore hk
      · obtain ⟨j', p', ⟨hs, -⟩, hend', -, hafter⟩ := hall k r' ((h.sharedRecord k).symm.trans hr')
        rw [decide_eq_true_iff, hfirst hs hend']
        exact Nat.not_le.mpr (hafter hk)
      · rw [h.shared_len]
        omega
    have hwithin : i - j < p.length := by omega
    have hslot := List.getElem?_eq_getElem hwithin
    obtain ⟨hkind, hlength, hoffset⟩ := hr.slot _ _ hslot
    have hexact := hr.ascending_iff.mp hp _ hwithin
    have hrun := hr.run
    have hresolved : DataLayoutTable.runOffset r (i - j) = some (p[i - j]).offset := by
      rw [runOffset_eq_some (by omega), hoffset, Nat.mod_eq_of_lt hexact]
      exact ⟨hexact, rfl⟩
    have hentry : layout[i]? = some p[i - j] := by
      rw [flatten_sharedPieces, Nat.sub_zero, hslot] at hget
      exact hget
    rw [DataLayoutTable.sharedSlot, if_neg (by rw [h.shared_len]; omega), if_neg (by omega),
      hsearch, hentry]
    show (Overflow.checkedSub i r.firstSlot.toNat).bind _ = _
    rw [hstart, Overflow.checkedSub, if_pos hj, Option.bind_some, if_neg (by omega), hresolved,
      Option.map_some, entryOf, hkind, hlength]
    rfl
  · rw [List.getElem?_eq_none (Nat.not_lt.mp hi), Option.map_none, DataLayoutTable.sharedSlot]
    split_ifs with hempty hwide
    · rfl
    · rfl
    cases hsearch : searchLast (t.sharedRecord bits) (fun r => r.firstSlot.toNat ≤ i) 0
      (t.sharedSlots.len - 1) none with
    | none => rfl
    | some r =>
      -- Whatever record is found, its piece ends before the index.
      obtain hnone | ⟨m, hm⟩ := get_of_searchLast hsearch
      · cases hnone
      obtain ⟨j, p, ⟨hr, -⟩, -, hend⟩ := hrow.bounds ((h.sharedRecord m).symm.trans hm)
      have hstart := hfirst hr hend
      have hrun := hr.run
      have hpos := hr.pos
      rw [flatten_sharedPieces] at hend
      show (Overflow.checkedSub i r.firstSlot.toNat).bind _ = _
      rw [hstart, Overflow.checkedSub, if_pos (by omega), Option.bind_some, if_pos (by omega)]

/-- An index that does not fit in 32 bits is not resolved. -/
theorem sharedSlot_wide (t : DataLayoutTable) {i : ℕ} (hi : 2 ^ 32 ≤ i) :
    t.sharedSlot bits i = none := by
  rw [DataLayoutTable.sharedSlot, if_pos hi, ite_self]

/-- **The shared slots are read back exactly when no run wraps.** -/
theorem expandShared_iff (h : TableRead bits t slots (sharedRecords 0 layout) priv n)
    (hrange : ∀ e ∈ layout, SlotInRange e) :
    (∃ ys, (List.range t.sharedSlots.len).mapM (t.expandShared bits) = .ok ys ∧
      ys.flatten = layout) ↔ ∀ p ∈ sharedPieces layout, Ascending p := by
  have hrow := sharedRecords_inRow hrange 0
  have hread (j : ℕ) (r : SharedSlotRecord) (hr : (sharedRecords 0 layout)[j]? = some r) :
      t.expandShared bits j = DataLayoutTable.expandRun r := by
    obtain ⟨i, p, hstands, -⟩ := hrow.bounds hr
    have hrun : r.run ≠ 0 := by
      intro hzero
      have hpos := hstands.pos
      rw [← hstands.run, hzero] at hpos
      exact absurd hpos (Nat.lt_irrefl 0)
    rw [DataLayoutTable.expandShared, h.sharedRecord, hr]
    show (if r.run = 0 then _ else _) = _
    rw [if_neg hrun]
  have hlen := hrow.forall₂ (R := fun r p => p.length = r.run.toNat) fun _ _ _ hr => hr.run.symm
  have hpieces := read_flatten_iff hlen fun _ _ => length_of_expandRun
  rw [flatten_sharedPieces] at hpieces
  simp only [h.shared_len, mapM_range_eq_ok_iff hread]
  exact hpieces.trans (forall₂_iff_forall_mem (hrow.forall₂ fun _ _ _ hr => hr.expandRun_iff))

end Shared

/-! ## Slots -/

section Slots

/-- The slots of a record, whose name is looked up. -/
def slotsOf (bits : ℕ) (t : DataLayoutTable) (r : DataSlotRecord) :
    Except SchemaError (List DataSlot) := do
  let bytes ← okOr .badName ((t.names.getAs NameRef bits r.name.toNat).bind fun n =>
    t.pool.slice bits n.offset n.length)
  let name ← okOr .badName (fromUtf8 bytes)
  return List.replicate r.run.toNat
    ⟨name, if r.visibility = VisibilityTag.sharedSlot then .sharedSlot else .privateSlot⟩

theorem length_of_slotsOf {r : DataSlotRecord} {p : List DataSlot}
    (h : slotsOf bits t r = .ok p) : p.length = r.run.toNat := by
  obtain ⟨_, -, h⟩ := bind_eq_ok_iff.mp h
  obtain ⟨_, -, h⟩ := bind_eq_ok_iff.mp h
  rw [← pure_eq_ok_iff.mp h, List.length_replicate]

theorem visibility_of_tag (v : SlotVisibility) :
    (if visibilityTag v = VisibilityTag.sharedSlot then SlotVisibility.sharedSlot
      else .privateSlot) = v := by
  cases v <;> rfl

/-- **A record is expanded to its slots exactly when their name is in its place.** -/
theorem slotsOf_iff (h : NamesRead bits t.pool t.names n) (hstores : Stores n l)
    {r : DataSlotRecord} {s : DataSlot} {k : ℕ} (hrun : r.run ≠ 0)
    (hname : r.name = BitVec.ofNat 32 k) (hk : l[k]? = some s.name)
    (hvisibility : r.visibility = visibilityTag s.visibility) :
    slotsOf bits t r = .ok (List.replicate r.run.toNat s) ↔ NameInPlace l k s.name := by
  rw [slotsOf, hname, h.bytes hstores hk, bind_eq_ok_iff]
  constructor
  · rintro ⟨bytes, hbytes, hr⟩
    obtain rfl := Option.some.inj (okOr_eq_ok.mp hbytes)
    obtain ⟨name, hutf8, hr⟩ := bind_eq_ok_iff.mp hr
    have hpos : r.run.toNat ≠ 0 := fun hzero => hrun (BitVec.eq_of_toNat_eq hzero)
    have hslot := (List.replicate_inj.mp (pure_eq_ok_iff.mp hr)).2.resolve_left hpos
    obtain rfl : name = s.name := congrArg DataSlot.name hslot
    exact fromUtf8_eq_some.mp (okOr_eq_ok.mp hutf8)
  · intro hplace
    refine ⟨_, okOr_eq_ok.mpr rfl, bind_eq_ok_iff.mpr ⟨s.name, ?_, ?_⟩⟩
    · exact okOr_eq_ok.mpr (fromUtf8_eq_some.mpr hplace)
    · rw [hvisibility, visibility_of_tag]
      rfl

/-- **The slots are read back exactly when their names are in their places.** -/
theorem expandSlots_iff {layout : List DataSlot}
    (h : TableRead bits t (slotRecords layout .empty).1 shared priv n) (hstores : Stores n l)
    (hpre : slotNames layout [] <+: l) :
    (∃ ys, (List.range t.slots.len).mapM (t.expandSlots bits) = .ok ys ∧ ys.flatten = layout) ↔
      ∀ k s, (slotNames layout [])[k]? = some s → NameInPlace l k s := by
  obtain ⟨-, hrow, hused⟩ := slotRecords_inRow stores_empty layout 0
  have hread (j : ℕ) (r : DataSlotRecord) (hr : (slotRecords layout .empty).1[j]? = some r) :
      t.expandSlots bits j = slotsOf bits t r := by
    rw [DataLayoutTable.expandSlots, DataLayoutTable.slotName, h.slot, hr]
    rfl
  have hlen := hrow.forall₂ (R := fun r p => p.length = r.run.toNat) fun _ _ _ hr => by
    obtain ⟨s, -, rfl, -⟩ := hr
    exact List.length_replicate
  have hpieces := read_flatten_iff hlen fun _ _ (hr : slotsOf bits t _ = _) => length_of_slotsOf hr
  rw [flatten_slotPieces] at hpieces
  simp only [h.slots_len, mapM_range_eq_ok_iff hread]
  refine hpieces.trans ⟨fun hall k s hk => ?_, fun hplace => ?_⟩
  · have hklt := (List.getElem?_eq_some_iff.mp hk).1
    have hlt : l.length < 2 ^ 32 := by
      rw [← hstores.length_refs]
      exact h.names.names_lt
    have hle := hpre.length_le
    obtain ⟨r, hr, hname⟩ := hused k (Nat.zero_le k) hklt
    refine forall_mem_of_forall₂ (P := fun r => r.name = BitVec.ofNat 32 k → NameInPlace l k s)
      hall (hrow.forall₂ fun _ r p hr hslots hname => ?_) r hr hname
    obtain ⟨s', k', rfl, hrun, hname', hk', hvisibility⟩ := hr
    -- Both indices fit in 32 bits, so they are the same.
    have hk'lt := (List.getElem?_eq_some_iff.mp hk').1
    have hkk' : k' = k := by
      have hnat := congrArg BitVec.toNat (hname'.symm.trans hname)
      rwa [BitVec.toNat_ofNat, BitVec.toNat_ofNat, Nat.mod_eq_of_lt (by omega),
        Nat.mod_eq_of_lt (by omega)] at hnat
    subst hkk'
    obtain rfl : s'.name = s := Option.some.inj (hk'.symm.trans hk)
    exact (slotsOf_iff h.names hstores hrun hname (getElem?_mono hpre hk) hvisibility).mp hslots
  · refine hrow.forall₂ fun _ r p hr => ?_
    obtain ⟨s, k, rfl, hrun, hname, hk, hvisibility⟩ := hr
    exact (slotsOf_iff h.names hstores hrun hname (getElem?_mono hpre hk) hvisibility).mpr
      (hplace k _ hk)

end Slots

/-! ## The regions -/

/-- The places of the private composites. -/
def privateRecords (layout : DataLayout) : List PrivateCompositeRecord :=
  layout.privateCompositeLayout.map fun p => ⟨BitVec.ofNat 16 p.slot, 0, BitVec.ofNat 32 p.offset⟩

/-- The regions of a data layout. -/
def dataTables (slots : List DataSlotRecord) (shared : List SharedSlotRecord)
    (priv : List PrivateCompositeRecord) (init : DataInitRecord) : List RegionBuf :=
  [⟨Kind.dataSlots, 0, slots.flatMap LawfulCodec.recordBytes, none⟩,
    ⟨Kind.sharedLayout, 0, shared.flatMap LawfulCodec.recordBytes, none⟩,
    ⟨Kind.privateComposite, 0, priv.flatMap LawfulCodec.recordBytes, none⟩,
    ⟨Kind.dataInit, 0, [init].flatMap LawfulCodec.recordBytes, none⟩]

/-- A data layout follows the regions that are there. -/
theorem addDataLayout_ok {sb sb' : SchemaBuilder} {layout : DataLayout}
    (h : sb.addDataLayout layout = .ok sb') :
    sb'.b.regions = sb.b.regions ++ dataTables (slotRecords layout.slots sb.names).1
      (sharedRecords 0 layout.sharedLayout) (privateRecords layout)
      ⟨(sb.addPrivateInit layout).2.1, (sb.addPrivateInit layout).2.2⟩ ∧
    sb'.names = (slotRecords layout.slots sb.names).2 ∧
    sb'.constRoots = (sb.addPrivateInit layout).1.constRoots ∧
    sb'.wantsConstants = (sb.addPrivateInit layout).1.wantsConstants ∧
    (sb.b.Reachable → sb'.b.Reachable) := by
  have hinit : (sb.addPrivateInit layout).1.b = sb.b ∧
      (sb.addPrivateInit layout).1.names = sb.names := by
    rw [SchemaBuilder.addPrivateInit]
    split_ifs
    · exact ⟨rfl, rfl⟩
    · exact ⟨rfl, rfl⟩
  rw [SchemaBuilder.addDataLayout] at h
  rw [← hinit.1, ← hinit.2]
  clear hinit
  generalize sb.addPrivateInit layout = added at h ⊢
  obtain ⟨s, first, count⟩ := added
  obtain ⟨⟨id₁, b₁⟩, h₁, h⟩ := bind_eq_ok_iff.mp h
  obtain ⟨⟨id₂, b₂⟩, h₂, h⟩ := bind_eq_ok_iff.mp h
  obtain ⟨⟨id₃, b₃⟩, h₃, h⟩ := bind_eq_ok_iff.mp h
  obtain ⟨⟨id₄, b₄⟩, h₄, h⟩ := bind_eq_ok_iff.mp h
  obtain rfl := Except.ok.inj h
  obtain ⟨hid₁, hb₁, hr₁⟩ := declare_ok h₁
  obtain ⟨hid₂, hb₂, hr₂⟩ := declare_ok h₂
  obtain ⟨hid₃, hb₃, hr₃⟩ := declare_ok h₃
  obtain ⟨hid₄, hb₄, hr₄⟩ := declare_ok h₄
  refine ⟨?_, rfl, rfl, rfl, fun hb =>
    ((((hr₄ (hr₃ (hr₂ (hr₁ hb)))).pushRecords _).pushRecords _).pushRecords _).pushRecords _⟩
  rw [hb₁, List.length_append] at hid₂
  rw [hb₂, hb₁, List.append_assoc, List.length_append] at hid₃
  rw [hb₃, hb₂, hb₁, List.append_assoc, List.append_assoc, List.length_append] at hid₄
  rw [hb₃, hb₂, hb₁, List.append_assoc, List.append_assoc, List.append_assoc] at hb₄
  have hp₁ := pushRecords_append hb₄ hid₁ (k := 0) rfl
    (slotRecords layout.slots s.names).1
  have hp₂ := pushRecords_append hp₁ hid₂ rfl (sharedRecords 0 layout.sharedLayout)
  have hp₃ := pushRecords_append hp₂ hid₃ rfl (privateRecords layout)
  exact pushRecords_append hp₃ hid₄ rfl [DataInitRecord.mk first count]

/-- **The regions of a data layout are parsed** to a table that reads as its records. -/
theorem parse_layout {bytes : List Byte} {v : WireView} {init : DataInitRecord}
    (hparse : WireView.parse bits bytes = .ok v)
    (hregions : ∀ r ∈ dataTables slots shared priv init ++ nameTables n, HoldsRegion bits v r)
    (hstands : ∀ r ∈ slots, ∃ p, SlotStands l 0 r p) (hstores : Stores n l) :
    ∃ t, DataLayoutTable.parse bits bytes = .ok (some t) ∧
      TableRead bits t slots shared priv n ∧ t.init = init := by
  obtain ⟨eslots, hslots, hslotsBytes⟩ := hregions _ (.head _)
  obtain ⟨eshared, hshared, hsharedBytes⟩ := hregions _ (.tail _ (.head _))
  obtain ⟨epriv, hpriv, hprivBytes⟩ := hregions _ (.tail _ (.tail _ (.head _)))
  obtain ⟨einit, hinit, hinitBytes⟩ := hregions _ (.tail _ (.tail _ (.tail _ (.head _))))
  obtain ⟨epool, erefs, hpool, hrefs, hpoolTable, hntable, hnames⟩ :=
    namesRead_of_regions (n := n) fun r hr => hregions r (List.mem_append_right _ hr)
  obtain ⟨hslotTable, hslotlt, -⟩ := typedRecords_eq hslotsBytes
  obtain ⟨hsharedTable, hsharedlt, -⟩ := typedRecords_eq hsharedBytes
  obtain ⟨hprivTable, hprivlt, -⟩ := typedRecords_eq hprivBytes
  obtain ⟨hinitTable, hinitlt, -⟩ := typedRecords_eq hinitBytes
  have hread : TableRead bits ⟨⟨padOut n.pool⟩, .ofRecords n.refs, .ofRecords slots,
      .ofRecords shared, .ofRecords priv, init⟩ slots shared priv n :=
    { slot := RecordTable.getAs_ofRecords _ hslotlt
      slots_len := RecordTable.len_ofRecords _
      sharedRecord := RecordTable.getAs_ofRecords _ hsharedlt
      shared_len := RecordTable.len_ofRecords _
      privateRecord := RecordTable.getAs_ofRecords _ hprivlt
      private_len := RecordTable.len_ofRecords _
      names := hnames }
  refine ⟨_, ?_, hread, rfl⟩
  have hregion {kind : BitVec 16} {e : KeleusmaWire.Region} (he : v.findRegion kind = some e) :
      okOr (.missingRegion kind) (v.findRegion kind) = .ok e := okOr_eq_ok.mpr he
  rw [DataLayoutTable.parse]
  refine bind_eq_ok_iff.mpr ⟨v, inContainer_eq_ok.mpr hparse, ?_⟩
  rw [show v.findRegion Kind.dataSlots = some eslots from hslots]
  refine bind_eq_ok_iff.mpr ⟨einit, hregion hinit, ?_⟩
  refine bind_eq_ok_iff.mpr ⟨_, inContainer_eq_ok.mpr hinitTable, ?_⟩
  refine bind_eq_ok_iff.mpr ⟨init, okOr_eq_ok.mpr (RecordTable.getAs_ofRecords _ hinitlt 0), ?_⟩
  refine bind_eq_ok_iff.mpr ⟨epool, hregion hpool, ?_⟩
  refine bind_eq_ok_iff.mpr ⟨_, inContainer_eq_ok.mpr hpoolTable, ?_⟩
  refine bind_eq_ok_iff.mpr ⟨erefs, hregion hrefs, ?_⟩
  refine bind_eq_ok_iff.mpr ⟨_, inContainer_eq_ok.mpr hntable, ?_⟩
  refine bind_eq_ok_iff.mpr ⟨_, inContainer_eq_ok.mpr hslotTable, ?_⟩
  refine bind_eq_ok_iff.mpr ⟨eshared, hregion hshared, ?_⟩
  refine bind_eq_ok_iff.mpr ⟨_, inContainer_eq_ok.mpr hsharedTable, ?_⟩
  refine bind_eq_ok_iff.mpr ⟨epriv, hregion hpriv, ?_⟩
  refine bind_eq_ok_iff.mpr ⟨_, inContainer_eq_ok.mpr hprivTable, ?_⟩
  refine bind_eq_ok_iff.mpr ⟨(), forM_eq_ok_iff.mpr fun j hj => ?_, rfl⟩
  rw [List.mem_range, hread.slots_len] at hj
  have hr := List.getElem?_eq_getElem hj
  obtain ⟨p, s, k, -, hrun, hname, hk, hvisibility⟩ := hstands _ (List.mem_of_getElem? hr)
  refine bind_eq_ok_iff.mpr ⟨_, okOr_eq_ok.mpr ((hread.slot j).trans hr), ?_⟩
  have hindex : slots[j].name.toNat < n.refs.length := by
    rw [hname, hstores.length_refs]
    exact (Nat.mod_le _ _).trans_lt (List.getElem?_eq_some_iff.mp hk).1
  have htag : ¬ (slots[j].visibility ≠ VisibilityTag.sharedSlot ∧
      slots[j].visibility ≠ VisibilityTag.privateSlot) := by
    rw [hvisibility]
    cases s.visibility
    · exact fun h => h.1 rfl
    · exact fun h => h.2 rfl
  rw [RecordTable.len_ofRecords, if_neg (Nat.not_le.mpr hindex), if_neg htag, if_neg hrun]

/-! ## The round trip -/

/-- The fields of a layout are in the range of their types. -/
structure LayoutInRange (layout : DataLayout) : Prop where
  shared : ∀ e ∈ layout.sharedLayout, SlotInRange e
  priv : ∀ p ∈ layout.privateCompositeLayout, p.slot < 2 ^ 16 ∧ p.offset < 2 ^ 32
  init : ∀ node ∈ entries layout.privateInit, NodeInRange node

/-- The initial values that are stored. -/
def storedInit (layout : DataLayout) : List ConstValue :=
  if privateInitIsElided layout then [] else layout.privateInit

/-- The names that are stored for a layout. -/
noncomputable def layoutNames (layout : DataLayout) : List String :=
  storedAfter (slotNames layout.slots []) (entries (storedInit layout))

/-- The layout is read back part by part. -/
theorem decodeDataLayout_eq_ok {bytes : List Byte} {layout : DataLayout}
    (hparse : DataLayoutTable.parse bits bytes = .ok (some t)) :
    decodeDataLayout bits bytes = .ok (some layout) ↔
      (∃ ys, (List.range t.slots.len).mapM (t.expandSlots bits) = .ok ys ∧
        ys.flatten = layout.slots) ∧
      (∃ ys, (List.range t.sharedSlots.len).mapM (t.expandShared bits) = .ok ys ∧
        ys.flatten = layout.sharedLayout) ∧
      (List.range t.privateComposite.len).mapM (t.expandPrivate bits) =
        .ok layout.privateCompositeLayout ∧
      t.privateInit bits bytes = .ok layout.privateInit := by
  rw [decodeDataLayout, hparse]
  show (((List.range t.slots.len).mapM (t.expandSlots bits)) >>= _) = _ ↔ _
  simp only [bind_eq_ok_iff, pure_eq_ok_iff, Option.some.injEq]
  obtain ⟨slots, shared, priv, init⟩ := layout
  constructor
  · rintro ⟨ys, hys, zs, hzs, ps, hps, is, his, heq⟩
    cases heq
    exact ⟨⟨ys, hys, rfl⟩, ⟨zs, hzs, rfl⟩, hps, his⟩
  · rintro ⟨⟨ys, hys, rfl⟩, ⟨zs, hzs, rfl⟩, hps, his⟩
    exact ⟨ys, hys, zs, hzs, _, hps, _, his, rfl⟩

/-- The private composites are read back. -/
theorem expandPrivate_eq_ok {layout : DataLayout}
    (h : TableRead bits t slots shared (privateRecords layout) n) (hrange : LayoutInRange layout) :
    (List.range t.privateComposite.len).mapM (t.expandPrivate bits) =
      .ok layout.privateCompositeLayout := by
  have hread (j : ℕ) (r : PrivateCompositeRecord) (hr : (privateRecords layout)[j]? = some r) :
      t.expandPrivate bits j = .ok ⟨r.slot.toNat, r.offset.toNat⟩ := by
    rw [DataLayoutTable.expandPrivate, h.privateRecord, hr]
    rfl
  rw [h.private_len, mapM_range_eq_ok_iff (g := fun r : PrivateCompositeRecord =>
    .ok ⟨r.slot.toNat, r.offset.toNat⟩) hread, privateRecords, List.forall₂_map_left_iff,
    List.forall₂_same]
  intro p hp
  obtain ⟨hslot, hoffset⟩ := hrange.priv p hp
  rw [BitVec.toNat_ofNat, BitVec.toNat_ofNat, Nat.mod_eq_of_lt hslot, Nat.mod_eq_of_lt hoffset]

/-- Defaults that are only counted are read back when the count fits in 32 bits. -/
theorem privateInit_elided {bytes : List Byte} {layout : DataLayout}
    (helided : privateInitIsElided layout)
    (hinit : t.init = ⟨absent, BitVec.ofNat 32 layout.privateInit.length⟩) :
    t.privateInit bits bytes = .ok layout.privateInit ↔ layout.privateInit.length < 2 ^ 32 := by
  rw [privateInitIsElided, Bool.and_eq_true] at helided
  have hdefault : layout.privateInit = List.replicate layout.privateInit.length (.int 0) := by
    refine List.eq_replicate_iff.mpr ⟨rfl, fun v hmem => ?_⟩
    have hv := List.all_eq_true.mp helided.2 v hmem
    clear hmem
    cases v
    case int n =>
      have hzero : (n == 0) = true := hv
      rw [beq_iff_eq.mp hzero]
    all_goals cases hv
  rw [DataLayoutTable.privateInit, hinit, if_pos rfl, Except.ok.injEq]
  constructor
  · intro heq
    have hlen := congrArg List.length heq
    rw [List.length_replicate, BitVec.toNat_ofNat] at hlen
    omega
  · intro hlt
    rw [BitVec.toNat_ofNat, Nat.mod_eq_of_lt hlt]
    exact hdefault.symm

section Stored

variable {bytes : List Byte} {ct : ConstTable} {before : List String} {roots : List ConstValue}
  {s : Flattening}

/-- A pool on its own is read back when the names are in their places. -/
theorem decodeConstantPool_of (hparse : ConstTable.parse bits bytes = .ok ct)
    (hrep : Represents bits ct s.tables s.names) (hw : Written before roots (entries roots) s)
    (hrange : ∀ node ∈ entries roots, NodeInRange node)
    (hplace : NamesInPlace (storedAfter before (entries roots))) :
    decodeConstantPool bits bytes (0, BitVec.ofNat 32 roots.length) = .ok roots := by
  have hpools : decodeConstantPools bits bytes (rangesFrom 0 [roots]) = .ok [roots] := by
    refine decodeConstantPools_of hparse hrep hw hrange hplace ?_ fun k v hk => ?_
    · rw [List.flatten_singleton, Nat.zero_add]
    · rwa [List.flatten_singleton, ← Nat.zero_add k] at hk
  exact bind_eq_ok_iff.mpr ⟨_, hpools, rfl⟩

/-- The names of a pool that is read back are in their places. -/
theorem nameInPlace_of_decodeConstantPool (hparse : ConstTable.parse bits bytes = .ok ct)
    (hrep : Represents bits ct s.tables s.names) (hw : Written before roots (entries roots) s)
    (hrange : ∀ node ∈ entries roots, NodeInRange node)
    (hdecode : decodeConstantPool bits bytes (0, BitVec.ofNat 32 roots.length) = .ok roots)
    {k : ℕ} {str : String} (hk : (storedAfter before (entries roots))[k]? = some str)
    (hle : before.length ≤ k) : NameInPlace (storedAfter before (entries roots)) k str := by
  obtain ⟨pools, hpools, hlast⟩ := bind_eq_ok_iff.mp hdecode
  obtain ⟨D, hread, hall⟩ := decodeConstantPools_reads hparse hpools
  obtain ⟨pool, rest, hpool, hrest, rfl⟩ := List.forall₂_cons_left_iff.mp hall
  obtain rfl := List.forall₂_nil_left_iff.mp hrest
  obtain rfl : pool = roots := pure_eq_ok_iff.mp hlast
  refine hread.nameInPlace hrep hw hrange (fun k v hk => ?_) hk hle
  have hD := (hpool k v hk).2
  rwa [show (0 : BitVec 32).toNat = 0 from rfl, Nat.zero_add] at hD

end Stored

/-- **What the artifact of a layout is parsed to.** -/
theorem parse_finish_layout {bytes : List Byte} {layout : DataLayout}
    (h : (SchemaBuilder.new.addDataLayout layout >>= SchemaBuilder.finish bits) = .ok bytes) :
    ∃ t n, DataLayoutTable.parse bits bytes = .ok (some t) ∧
      TableRead bits t (slotRecords layout.slots .empty).1 (sharedRecords 0 layout.sharedLayout)
        (privateRecords layout) n ∧ Stores n (layoutNames layout) ∧
      (privateInitIsElided layout →
        t.init = ⟨absent, BitVec.ofNat 32 layout.privateInit.length⟩) ∧
      (¬ privateInitIsElided layout →
        t.init = ⟨0, BitVec.ofNat 32 layout.privateInit.length⟩ ∧
        ∃ ct s, ConstTable.parse bits bytes = .ok ct ∧ Represents bits ct s.tables s.names ∧
          Written (slotNames layout.slots []) layout.privateInit
            (entries layout.privateInit) s) := by
  obtain ⟨sb, hadd, hfinish⟩ := bind_eq_ok_iff.mp h
  obtain ⟨hregions, hnames, hroots, hwants, hreach⟩ := addDataLayout_ok hadd
  have hreachable := hreach .new
  have hbase : SchemaBuilder.new.names = .empty := rfl
  have hempty : SchemaBuilder.new.b.regions = [] := rfl
  rw [hbase] at hregions hnames
  rw [hempty, List.nil_append] at hregions
  obtain ⟨hstores, hrow, -⟩ := slotRecords_inRow stores_empty layout.slots 0
  have hstands {l : List String} (hpre : slotNames layout.slots [] <+: l) :
      ∀ r ∈ (slotRecords layout.slots .empty).1, ∃ p, SlotStands l 0 r p := by
    intro r hr
    obtain ⟨m, hm⟩ := List.getElem?_of_mem hr
    obtain ⟨j, p, hslots, -⟩ := hrow.bounds hm
    exact ⟨p, SlotStands.mono hpre hslots⟩
  obtain ⟨sb', hemit, b, hb, hbytes, hreach'⟩ := finish_ok hfinish
  by_cases helided : privateInitIsElided layout
  · rw [SchemaBuilder.addPrivateInit, if_pos helided] at hregions hwants
    rw [SchemaBuilder.emitConstants, hwants] at hemit
    obtain rfl : sb = sb' := Except.ok.inj hemit
    obtain ⟨v, hparse, hfound, -⟩ := KeleusmaWire.finish_regions (hreach' hreachable) hbytes
    rw [hb, hregions, hnames] at hfound
    have hlayout : layoutNames layout = slotNames layout.slots [] := by
      rw [layoutNames, storedInit, if_pos helided, entries, order_nil, storedAfter,
        List.flatMap_nil, List.foldl_nil]
    obtain ⟨t, ht, hread, hinit⟩ := parse_layout hparse hfound (hstands List.prefix_rfl) hstores
    refine ⟨t, _, ht, hread, hlayout ▸ hstores, fun _ => hinit, fun hnot => absurd helided hnot⟩
  · rw [SchemaBuilder.addPrivateInit, if_neg helided] at hregions hwants hroots
    have hroots' : sb.constRoots = layout.privateInit := hroots
    obtain ⟨s, hs, hw⟩ := flatten_written hstores layout.privateInit
    rw [← hroots', ← hnames] at hs
    obtain ⟨hb', hnames', hreach''⟩ := emitConstants_ok hemit hwants hs
    obtain ⟨v, hparse, hfound, -⟩ :=
      KeleusmaWire.finish_regions (hreach' (hreach'' hreachable)) hbytes
    rw [hb, hb', hregions, hnames', List.append_assoc] at hfound
    have hlayout : layoutNames layout =
        storedAfter (slotNames layout.slots []) (entries layout.privateInit) := by
      rw [layoutNames, storedInit, if_neg helided]
    have hfound' : ∀ r ∈ dataTables (slotRecords layout.slots .empty).1
        (sharedRecords 0 layout.sharedLayout) (privateRecords layout)
        ⟨0, BitVec.ofNat 32 layout.privateInit.length⟩ ++ nameTables s.names,
        HoldsRegion bits v r := by
      intro r hr
      refine hfound r ?_
      obtain hdata | hname := List.mem_append.mp hr
      · exact List.mem_append_left _ hdata
      · exact List.mem_append_right _ (List.mem_append_right _ hname)
    obtain ⟨t, ht, hread, hinit⟩ :=
      parse_layout hparse hfound' (hstands (prefix_foldl_store _ _)) hw.stores
    rw [← hroots'] at hw
    obtain ⟨ct, hct, hrep⟩ := parse_finish hreachable hwants hs hw hfinish
    rw [hroots'] at hw
    exact ⟨t, _, ht, hread, hlayout ▸ hw.stores, fun hyes => absurd hyes helided,
      fun _ => ⟨hinit, ct, s, hct, hrep, hw⟩⟩

/-- What it takes for a layout to be read back. -/
structure ReadsBack (layout : DataLayout) : Prop where
  names : NamesInPlace (layoutNames layout)
  ascending : ∀ p ∈ sharedPieces layout.sharedLayout, Ascending p
  indexed : layout.sharedLayout.length ≤ 2 ^ 32
  counted : privateInitIsElided layout → layout.privateInit.length < 2 ^ 32

/-- Offsets that ascend over the whole layout ascend in every piece. -/
theorem ascending_of_layout {shared : List SharedSlotLayout} (h : Ascending shared) :
    ∀ p ∈ sharedPieces shared, Ascending p := by
  intro p hp
  have hsub := List.sublist_flatten_of_mem hp
  rw [flatten_sharedPieces] at hsub
  exact h.sublist (hsub.map _)

/-! ## Two layouts -/

/-- An array of three words, a byte after it, and a private word that starts at seven. -/
def arrayLayout : DataLayout where
  slots := [⟨"words", .sharedSlot⟩, ⟨"words", .sharedSlot⟩, ⟨"words", .sharedSlot⟩,
    ⟨"last", .sharedSlot⟩, ⟨"count", .privateSlot⟩]
  sharedLayout := [⟨0, 3, 0⟩, ⟨8, 3, 0⟩, ⟨16, 3, 0⟩, ⟨24, 2, 0⟩]
  privateCompositeLayout := []
  privateInit := [.int 7]

/-- Two shared slots whose offsets are two apart, modulo `2 ^ 32`. -/
def wrappingLayout : DataLayout where
  slots := [⟨"words", .sharedSlot⟩, ⟨"words", .sharedSlot⟩]
  sharedLayout := [⟨0xFFFFFFFF, 3, 0⟩, ⟨1, 3, 0⟩]
  privateCompositeLayout := []
  privateInit := []

end Keleusma.Schema
