import Keleusma.Schema.Rebuilt
import Keleusma.Wire.RoundTrip

/-!
# The round trip of the constants

An artifact that is built from pools of constants parses to a table that represents them
(`parse_finish`). The pools are read back exactly when every name that is stored for them is the
slice of the pool that its reference names, whose offset and length are cut to 32 bits
(`decodeConstantPools_roundTrip`).
-/

namespace Keleusma.Schema

open KeleusmaWire (Byte WireBuilder WireError WireView WireRecord LawfulCodec RegionBuf RecordTable
  padOut)
open BreadthFirst Outcomes

variable {bits : ℕ} {t : ConstTable} {before : List String} {roots : List ConstValue}
  {s : Flattening}

/-! ## The regions -/

/-- The regions of the constants. -/
def constTables (t : Tables) : List RegionBuf :=
  [⟨Kind.consts, 0, t.consts.flatMap LawfulCodec.recordBytes, none⟩,
    ⟨Kind.structAux, 0, t.structAux.flatMap LawfulCodec.recordBytes, none⟩,
    ⟨Kind.enumAux, 0, t.enumAux.flatMap LawfulCodec.recordBytes, none⟩]

/-- The regions of the names. -/
def nameTables (n : Names) : List RegionBuf :=
  [⟨Kind.stringPool, 0, n.pool, none⟩,
    ⟨Kind.names, 0, n.refs.flatMap LawfulCodec.recordBytes, none⟩]

/-- The regions of an artifact that holds constants. -/
def constRegions (t : Tables) (n : Names) : List RegionBuf :=
  [⟨Kind.consts, 0, t.consts.flatMap LawfulCodec.recordBytes, none⟩,
    ⟨Kind.structAux, 0, t.structAux.flatMap LawfulCodec.recordBytes, none⟩,
    ⟨Kind.enumAux, 0, t.enumAux.flatMap LawfulCodec.recordBytes, none⟩,
    ⟨Kind.stringPool, 0, n.pool, none⟩,
    ⟨Kind.names, 0, n.refs.flatMap LawfulCodec.recordBytes, none⟩]

/-- A region of a new kind is declared after the others. -/
theorem declare_eq (b : WireBuilder) (kind : BitVec 16) (hfresh : b.kindInUse kind = false)
    (hcount : b.emitCount < KeleusmaWire.maxRegions) :
    SchemaBuilder.declare b kind = .ok (b.regions.length, ⟨b.regions ++ [⟨kind, 0, [], none⟩]⟩) ∧
      (b.Reachable → (WireBuilder.mk (b.regions ++ [⟨kind, 0, [], none⟩])).Reachable) := by
  have hregion : b.region kind 0 =
      (.ok b.regions.length, ⟨b.regions ++ [⟨kind, 0, [], none⟩]⟩) := by
    rw [WireBuilder.region, if_neg (by rw [hfresh]; decide), if_neg (Nat.not_le.mpr hcount)]
  rw [SchemaBuilder.declare, hregion]
  refine ⟨rfl, fun hb => ?_⟩
  have hnext : (b.region kind 0).2.Reachable := hb.region rfl rfl
  rwa [hregion] at hnext

/-- The builder of constants lays out these regions. -/
theorem finish_constants {sb : SchemaBuilder} (hb : sb.b = .new) (hnames : sb.names = .empty)
    (hwants : sb.wantsConstants = true) (hs : flatten sb.constRoots .empty = (s.tables, s.names)) :
    sb.finish bits = (WireBuilder.mk (constRegions s.tables s.names)).finish bits ∧
      (WireBuilder.mk (constRegions s.tables s.names)).Reachable := by
  obtain ⟨b, names, constRoots, wants⟩ := sb
  dsimp only at hb hnames hwants hs
  subst hb hnames hwants
  -- The builders that the declarations and the pushes lead through.
  obtain ⟨hconsts, hreach₁⟩ : SchemaBuilder.declare .new Kind.consts =
      .ok (0, ⟨[⟨Kind.consts, 0, [], none⟩]⟩) ∧ _ := declare_eq .new Kind.consts rfl (by decide)
  obtain ⟨hstruct, hreach₂⟩ : SchemaBuilder.declare ⟨[⟨Kind.consts, 0, [], none⟩]⟩ Kind.structAux =
      .ok (1, ⟨[⟨Kind.consts, 0, [], none⟩, ⟨Kind.structAux, 0, [], none⟩]⟩) ∧ _ :=
    declare_eq _ Kind.structAux rfl (by decide)
  obtain ⟨henum, hreach₃⟩ : SchemaBuilder.declare
      ⟨[⟨Kind.consts, 0, [], none⟩, ⟨Kind.structAux, 0, [], none⟩]⟩ Kind.enumAux =
        .ok (2, ⟨[⟨Kind.consts, 0, [], none⟩, ⟨Kind.structAux, 0, [], none⟩,
          ⟨Kind.enumAux, 0, [], none⟩]⟩) ∧ _ :=
    declare_eq _ Kind.enumAux rfl (by decide)
  have hpush₁ : (WireBuilder.mk [⟨Kind.consts, 0, [], none⟩, ⟨Kind.structAux, 0, [], none⟩,
      ⟨Kind.enumAux, 0, [], none⟩]).pushRecords 0 s.tables.consts =
        ⟨(constRegions s.tables s.names).take 1 ++
          [⟨Kind.structAux, 0, [], none⟩, ⟨Kind.enumAux, 0, [], none⟩]⟩ :=
    (WireBuilder.pushRecords_eq (r := ⟨Kind.consts, 0, [], none⟩) rfl _).trans rfl
  have hpush₂ : (WireBuilder.mk ((constRegions s.tables s.names).take 1 ++
      [⟨Kind.structAux, 0, [], none⟩, ⟨Kind.enumAux, 0, [], none⟩])).pushRecords 1
        s.tables.structAux =
          ⟨(constRegions s.tables s.names).take 2 ++ [⟨Kind.enumAux, 0, [], none⟩]⟩ :=
    (WireBuilder.pushRecords_eq (r := ⟨Kind.structAux, 0, [], none⟩) rfl _).trans rfl
  have hpush₃ : (WireBuilder.mk ((constRegions s.tables s.names).take 2 ++
      [⟨Kind.enumAux, 0, [], none⟩])).pushRecords 2 s.tables.enumAux =
        ⟨(constRegions s.tables s.names).take 3⟩ :=
    (WireBuilder.pushRecords_eq (r := ⟨Kind.enumAux, 0, [], none⟩) rfl _).trans rfl
  have hreach₄ : (WireBuilder.mk ((constRegions s.tables s.names).take 3)).Reachable := by
    rw [← hpush₃, ← hpush₂, ← hpush₁]
    exact ((hreach₃ (hreach₂ (hreach₁ .new))).pushRecords _).pushRecords _ |>.pushRecords _
  obtain ⟨hpool, hreach₅⟩ : SchemaBuilder.declare ⟨(constRegions s.tables s.names).take 3⟩
      Kind.stringPool = .ok (3, ⟨(constRegions s.tables s.names).take 3 ++
        [⟨Kind.stringPool, 0, [], none⟩]⟩) ∧ _ :=
    declare_eq ⟨(constRegions s.tables s.names).take 3⟩ _ rfl
      (show 3 < KeleusmaWire.maxRegions by decide)
  obtain ⟨hrefs, hreach₆⟩ : SchemaBuilder.declare ⟨(constRegions s.tables s.names).take 3 ++
      [⟨Kind.stringPool, 0, [], none⟩]⟩ Kind.names = .ok (4, ⟨(constRegions s.tables s.names).take 3 ++
        [⟨Kind.stringPool, 0, [], none⟩] ++ [⟨Kind.names, 0, [], none⟩]⟩) ∧ _ :=
    declare_eq ⟨(constRegions s.tables s.names).take 3 ++ [RegionBuf.mk Kind.stringPool 0 [] none]⟩ _
      rfl (show 4 < KeleusmaWire.maxRegions by decide)
  have hpush₄ : ((WireBuilder.mk ((constRegions s.tables s.names).take 3 ++
      [⟨Kind.stringPool, 0, [], none⟩] ++ [⟨Kind.names, 0, [], none⟩])).push 3 s.names.pool).2 =
        ⟨(constRegions s.tables s.names).take 4 ++ [⟨Kind.names, 0, [], none⟩]⟩ := rfl
  have hpush₅ : (WireBuilder.mk ((constRegions s.tables s.names).take 4 ++
      [⟨Kind.names, 0, [], none⟩])).pushRecords 4 s.names.refs =
        ⟨constRegions s.tables s.names⟩ :=
    (WireBuilder.pushRecords_eq (r := ⟨Kind.names, 0, [], none⟩) rfl _).trans rfl
  constructor
  · rw [SchemaBuilder.finish, SchemaBuilder.emitConstants, if_pos rfl, hs]
    simp only [bind, Except.bind, pure, Except.pure, hconsts, hstruct, henum, hpush₁, hpush₂,
      hpush₃, hpool, hrefs, hpush₄, hpush₅]
  · rw [← hpush₅, ← hpush₄]
    exact (hreach₆ (hreach₅ hreach₄)).push.pushRecords _

/-- A region that is declared comes after the others. -/
theorem declare_ok {b b' : WireBuilder} {kind : BitVec 16} {id : ℕ}
    (h : SchemaBuilder.declare b kind = .ok (id, b')) :
    id = b.regions.length ∧ b'.regions = b.regions ++ [⟨kind, 0, [], none⟩] ∧
      (b.Reachable → b'.Reachable) := by
  have hreach : b.Reachable → (b.region kind 0).2.Reachable := fun hb => hb.region rfl rfl
  rw [SchemaBuilder.declare] at h
  rw [WireBuilder.region] at h hreach
  split_ifs at h hreach
  obtain ⟨rfl, rfl⟩ := Prod.mk.inj (Except.ok.inj h)
  exact ⟨rfl, rfl, hreach⟩

/-- Records fill the region that they are pushed to. -/
theorem pushRecords_append {T : Type} [LawfulCodec T] {b : WireBuilder} {id k : ℕ}
    {kind : BitVec 16} {front tail : List RegionBuf} (hb : b.regions = front ++ tail)
    (hid : id = front.length + k) (hk : tail[k]? = some ⟨kind, 0, [], none⟩) (rs : List T) :
    (b.pushRecords id rs).regions =
      front ++ tail.set k ⟨kind, 0, rs.flatMap LawfulCodec.recordBytes, none⟩ := by
  have hget : b.regions[id]? = some ⟨kind, 0, [], none⟩ := by
    rw [hb, hid, List.getElem?_append_right (Nat.le_add_right _ _), Nat.add_sub_cancel_left, hk]
  rw [WireBuilder.pushRecords_eq hget, hb, hid, List.set_append_right _ _ (Nat.le_add_right _ _),
    Nat.add_sub_cancel_left, List.nil_append]

/-- The constants follow the regions that are there. -/
theorem emitConstants_ok {sb sb' : SchemaBuilder} (h : sb.emitConstants = .ok sb')
    (hwants : sb.wantsConstants = true) (hs : flatten sb.constRoots sb.names = (s.tables, s.names)) :
    sb'.b.regions = sb.b.regions ++ constTables s.tables ∧ sb'.names = s.names ∧
      (sb.b.Reachable → sb'.b.Reachable) := by
  rw [SchemaBuilder.emitConstants, if_pos hwants, hs] at h
  obtain ⟨⟨id₁, b₁⟩, h₁, h⟩ := bind_eq_ok_iff.mp h
  obtain ⟨⟨id₂, b₂⟩, h₂, h⟩ := bind_eq_ok_iff.mp h
  obtain ⟨⟨id₃, b₃⟩, h₃, h⟩ := bind_eq_ok_iff.mp h
  obtain rfl := Except.ok.inj h
  obtain ⟨hid₁, hb₁, hr₁⟩ := declare_ok h₁
  obtain ⟨hid₂, hb₂, hr₂⟩ := declare_ok h₂
  obtain ⟨hid₃, hb₃, hr₃⟩ := declare_ok h₃
  refine ⟨?_, rfl, fun hb =>
    (((hr₃ (hr₂ (hr₁ hb))).pushRecords _).pushRecords _).pushRecords _⟩
  rw [hb₁, List.length_append] at hid₂
  rw [hb₂, hb₁, List.append_assoc, List.length_append] at hid₃
  rw [hb₂, hb₁, List.append_assoc, List.append_assoc] at hb₃
  have hp₁ := pushRecords_append hb₃ hid₁ (k := 0) rfl s.tables.consts
  have hp₂ := pushRecords_append hp₁ hid₂ rfl s.tables.structAux
  exact pushRecords_append hp₂ hid₃ rfl s.tables.enumAux

/-- The names follow the other regions. -/
theorem finish_ok {sb : SchemaBuilder} {bytes : List Byte} (h : sb.finish bits = .ok bytes) :
    ∃ sb', sb.emitConstants = .ok sb' ∧ ∃ b : WireBuilder,
      b.regions = sb'.b.regions ++ nameTables sb'.names ∧ b.finish bits = .ok bytes ∧
        (sb'.b.Reachable → b.Reachable) := by
  obtain ⟨sb', hemit, h⟩ := bind_eq_ok_iff.mp h
  obtain ⟨⟨id₁, b₁⟩, h₁, h⟩ := bind_eq_ok_iff.mp h
  obtain ⟨⟨id₂, b₂⟩, h₂, h⟩ := bind_eq_ok_iff.mp h
  obtain ⟨hid₁, hb₁, hr₁⟩ := declare_ok h₁
  obtain ⟨hid₂, hb₂, hr₂⟩ := declare_ok h₂
  refine ⟨sb', hemit, _, ?_, h, fun hb => (hr₂ (hr₁ hb)).push.pushRecords _⟩
  rw [hb₁, List.length_append] at hid₂
  rw [hb₁, List.append_assoc] at hb₂
  have hget : b₂.regions[id₁]? = some ⟨Kind.stringPool, 0, [], none⟩ := by
    rw [hb₂, hid₁, List.getElem?_append_right le_rfl, Nat.sub_self]
    rfl
  have hpush : (b₂.push id₁ sb'.names.pool).2.regions = sb'.b.regions ++
      [⟨Kind.stringPool, 0, sb'.names.pool, none⟩, ⟨Kind.names, 0, [], none⟩] := by
    rw [WireBuilder.push, hget]
    show b₂.regions.set id₁ _ = _
    rw [hb₂, hid₁, List.set_append_right _ _ le_rfl, Nat.sub_self]
    rfl
  exact pushRecords_append hpush hid₂ rfl sb'.names.refs

/-! ## The table that is parsed -/

/-- Records are read as the table that they make up. -/
theorem typedRecords_eq {T : Type} [LawfulCodec T] {v : WireView} {r : KeleusmaWire.Region} {rs : List T}
    (h : v.regionBytes bits r = .ok (padOut (rs.flatMap LawfulCodec.recordBytes))) :
    v.typedRecords T bits r = .ok (RecordTable.ofRecords rs) ∧
      WireRecord.stride T * rs.length < 2 ^ bits ∧
      WireRecord.stride T * rs.length ≤ 8 * r.wordLength.toNat := by
  have hwhole := KeleusmaWire.padOut_of_whole (LawfulCodec.whole_flatMap rs)
  rw [hwhole] at h
  obtain ⟨hle, hlt⟩ := KeleusmaWire.WireView.length_regionBytes h
  rw [LawfulCodec.length_flatMap] at hle hlt
  refine ⟨?_, hlt, hle⟩
  have hpos := LawfulCodec.stride_pos (T := T)
  have hstride := LawfulCodec.stride_whole (T := T)
  rw [WireView.typedRecords, WireView.records, if_neg (by rw [KeleusmaWire.word]; omega), h]
  show (if _ then _ else _) = _
  rw [if_neg (by rw [LawfulCodec.length_flatMap, Nat.mul_mod_right]; exact not_not.mpr rfl)]
  rfl

/-- The ranges of a table that represents what was written pass the check. -/
theorem validateOrdering_written (h : Represents bits t s.tables s.names)
    (hw : Written before roots (entries roots) s) : t.validateOrdering bits = .ok () := by
  rw [ConstTable.validateOrdering, forM_eq_ok_iff]
  intro i hi
  rw [List.mem_range, h.len] at hi
  have hr := List.getElem?_eq_getElem hi
  rw [h.record, hr]
  show (if _ then _ else _) = _
  split_ifs with hcomp hrange
  · obtain ⟨hlt, hle⟩ := hw.forward h.consts_lt hr hcomp
    have hforward : t.consts.rangeIsForward bits i s.tables.consts[i].asRange.1.toNat
        s.tables.consts[i].asRange.2.toNat := by
      refine RecordTable.rangeIsForward_iff.mpr ⟨hle.trans_lt h.consts_lt_usize, hlt, ?_⟩
      exact hle.trans (le_of_eq h.len.symm)
    rw [hforward] at hrange
    cases hrange
  · rfl
  · rfl

/-- The region of a kind is found with its payload. -/
def HoldsRegion (bits : ℕ) (v : WireView) (r : RegionBuf) : Prop :=
  ∃ e, v.findRegion r.kind = some e ∧ v.regionBytes bits e = .ok (padOut r.bytes)

/-- The names that are written are read. -/
theorem namesRead_of_regions {v : WireView} {n : Names}
    (hregions : ∀ r ∈ nameTables n, HoldsRegion bits v r) : ∃ epool erefs,
      v.findRegion Kind.stringPool = some epool ∧ v.findRegion Kind.names = some erefs ∧
        v.pool bits epool = .ok ⟨padOut n.pool⟩ ∧
        v.typedRecords NameRef bits erefs = .ok (.ofRecords n.refs) ∧
        NamesRead bits ⟨padOut n.pool⟩ (.ofRecords n.refs) n := by
  obtain ⟨epool, hpool, hpoolBytes⟩ := hregions _ (.head _)
  obtain ⟨erefs, hrefs, hrefsBytes⟩ := hregions _ (.tail _ (.head _))
  obtain ⟨hntable, hnlt, hnle⟩ := typedRecords_eq hrefsBytes
  have hcount : 8 * n.refs.length ≤ 8 * erefs.wordLength.toNat := hnle
  have hword := erefs.wordLength.isLt
  refine ⟨epool, erefs, hpool, hrefs, ?_, hntable, ?_⟩
  · rw [WireView.pool, hpoolBytes]
    rfl
  · exact ⟨RecordTable.getAs_ofRecords _ hnlt, List.prefix_append _ _,
      (KeleusmaWire.WireView.length_regionBytes hpoolBytes).2, by omega⟩

/-- A view that has the regions of constants is read as their table. -/
theorem parse_regions {bytes : List Byte} {v : WireView} (hparse : WireView.parse bits bytes = .ok v)
    (hregions : ∀ r ∈ constRegions s.tables s.names, HoldsRegion bits v r)
    (hw : Written before roots (entries roots) s) :
    ∃ t, ConstTable.parse bits bytes = .ok t ∧ Represents bits t s.tables s.names := by
  obtain ⟨econsts, hconsts, hconstsBytes⟩ := hregions _ (.head _)
  obtain ⟨estruct, hstruct, hstructBytes⟩ := hregions _ (.tail _ (.head _))
  obtain ⟨eenum, henum, henumBytes⟩ := hregions _ (.tail _ (.tail _ (.head _)))
  obtain ⟨epool, erefs, hpool, hrefs, hpoolTable, hntable, hnames⟩ :=
    namesRead_of_regions (n := s.names) fun r hr => hregions r
      (.tail _ (.tail _ (.tail _ hr)))
  obtain ⟨hctable, hclt, hcle⟩ := typedRecords_eq hconstsBytes
  obtain ⟨hstable, hslt, hsle⟩ := typedRecords_eq hstructBytes
  obtain ⟨hetable, helt, hele⟩ := typedRecords_eq henumBytes
  have hcount₁ : 16 * s.tables.consts.length ≤ 8 * econsts.wordLength.toNat := hcle
  have husize : 16 * s.tables.consts.length < 2 ^ bits := hclt
  have hcount₂ : 8 * s.tables.structAux.length ≤ 8 * estruct.wordLength.toNat := hsle
  have hcount₃ : 16 * s.tables.enumAux.length ≤ 8 * eenum.wordLength.toNat := hele
  have hword₁ := econsts.wordLength.isLt
  have hword₂ := estruct.wordLength.isLt
  have hword₃ := eenum.wordLength.isLt
  have hrep : Represents bits ⟨⟨padOut s.names.pool⟩, .ofRecords s.names.refs,
      .ofRecords s.tables.consts, .ofRecords s.tables.structAux, .ofRecords s.tables.enumAux⟩
        s.tables s.names :=
    { record := RecordTable.getAs_ofRecords _ hclt
      len := RecordTable.len_ofRecords _
      structAux := RecordTable.getAs_ofRecords _ hslt
      enumAux := RecordTable.getAs_ofRecords _ helt
      names := hnames.names
      pool := hnames.pool
      pool_lt := hnames.pool_lt
      consts_lt := by omega
      consts_lt_usize := by omega
      structAux_lt := by omega
      enumAux_lt := by omega
      names_lt := hnames.names_lt }
  refine ⟨_, ?_, hrep⟩
  have hregion {kind : BitVec 16} {e : KeleusmaWire.Region} (he : v.findRegion kind = some e) :
      okOr (.missingRegion kind) (v.findRegion kind) = .ok e := okOr_eq_ok.mpr he
  refine bind_eq_ok_iff.mpr ⟨v, inContainer_eq_ok.mpr hparse, ?_⟩
  refine bind_eq_ok_iff.mpr ⟨epool, hregion hpool, ?_⟩
  refine bind_eq_ok_iff.mpr ⟨_, inContainer_eq_ok.mpr hpoolTable, ?_⟩
  refine bind_eq_ok_iff.mpr ⟨erefs, hregion hrefs, ?_⟩
  refine bind_eq_ok_iff.mpr ⟨_, inContainer_eq_ok.mpr hntable, ?_⟩
  refine bind_eq_ok_iff.mpr ⟨econsts, hregion hconsts, ?_⟩
  refine bind_eq_ok_iff.mpr ⟨_, inContainer_eq_ok.mpr hctable, ?_⟩
  refine bind_eq_ok_iff.mpr ⟨estruct, hregion hstruct, ?_⟩
  refine bind_eq_ok_iff.mpr ⟨_, inContainer_eq_ok.mpr hstable, ?_⟩
  refine bind_eq_ok_iff.mpr ⟨eenum, hregion henum, ?_⟩
  refine bind_eq_ok_iff.mpr ⟨_, inContainer_eq_ok.mpr hetable, ?_⟩
  exact bind_eq_ok_iff.mpr ⟨(), validateOrdering_written hrep hw, rfl⟩

/-- **The artifact of constants parses** to a table that represents them, whatever was added
before. -/
theorem parse_finish {bytes : List Byte} {sb : SchemaBuilder} (hb : sb.b.Reachable)
    (hwants : sb.wantsConstants = true) (hs : flatten sb.constRoots sb.names = (s.tables, s.names))
    (hw : Written before sb.constRoots (entries sb.constRoots) s)
    (h : sb.finish bits = .ok bytes) :
    ∃ t, ConstTable.parse bits bytes = .ok t ∧ Represents bits t s.tables s.names := by
  obtain ⟨sb', hemit, b, hregions, hfinish, hreach⟩ := finish_ok h
  obtain ⟨hb', hnames, hreach'⟩ := emitConstants_ok hemit hwants hs
  obtain ⟨v, hparse, hfound, -⟩ := KeleusmaWire.finish_regions (hreach (hreach' hb)) hfinish
  refine parse_regions hparse (fun r hr => hfound r ?_) hw
  rw [hregions, hb', hnames, List.append_assoc]
  exact List.mem_append_right _ hr

/-! ## What is read back -/

/-- **A reading that has the roots has every constant.** By induction on the records whose
children are known to be right; each of them tells its own children. -/
theorem Reading.eq_entry (h : Represents bits t s.tables s.names)
    (hw : Written before roots (entries roots) s) (hrange : ∀ node ∈ entries roots, NodeInRange node)
    {D : ℕ → ConstValue} (hread : Reading bits t {i | i < t.len} D)
    (hroots : ∀ k v, roots[k]? = some v → D k = v) {i : ℕ} (hi : i ≤ (entries roots).length)
    {j : ℕ} {node : ConstValue} (hj : j < firstChild constForest roots i)
    (hnode : (entries roots)[j]? = some node) : D j = node := by
  induction i generalizing j node with
  | zero =>
    rw [firstChild_zero] at hj
    refine hroots j node ?_
    rwa [entries, order_eq, List.getElem?_append_left hj] at hnode
  | succ i ih =>
    have hparent := List.getElem?_eq_getElem hi
    set parent := (entries roots)[i]
    rw [firstChild_succ (F := constForest) hparent] at hj
    by_cases hold : j < firstChild constForest roots i
    · exact ih (Nat.le_of_succ_le hi) hold hnode
    obtain ⟨r, ks, hr, hentry, hshape⟩ := hw.record h.consts_lt hparent
    have hrec : t.record bits i = some r := (h.record i).trans hr
    have hlen : (storedAfter before (entries roots)).length < 2 ^ 32 := by
      rw [← hw.stores.length_refs]
      exact h.names_lt
    obtain ⟨r', hrec', -, hval⟩ := hread.reads i
      (ConstTable.lt_len_of_record hrec)
    obtain rfl : r = r' := Option.some.inj (hrec.symm.trans hrec')
    rw [ih (Nat.le_of_succ_le hi) (lt_firstChild (F := constForest) hi) hparent] at hval
    have hkids := ((assemble_iff h hlen (hrange parent (List.mem_of_getElem? hparent)) hentry hrec
      _).mp hval).1
    obtain ⟨hcomp, hfirst, hcount⟩ | ⟨-, hnil⟩ := hshape
    · have hrun := hkids hcomp
      rw [childIndices_composite hcomp, hfirst, hcount, List.map_map] at hrun
      obtain ⟨k, rfl⟩ := Nat.exists_eq_add_of_le (not_lt.mp hold)
      have hk : k < (children parent).length := Nat.lt_of_add_lt_add_left hj
      have hchild : (children parent)[k]? = some node :=
        (order_firstChild (F := constForest) hparent hk).symm.trans hnode
      rw [← hrun, List.getElem?_map, List.getElem?_range hk] at hchild
      exact Option.some.inj hchild
    · rw [show constForest.children parent = [] from hnil] at hj
      exact absurd hj hold

/-- A name is in its place. -/
def NameInPlace (l : List String) (k : ℕ) (s : String) : Prop :=
  KeleusmaWire.slice (l.flatMap utf8) (((l.take k).flatMap utf8).length % 2 ^ 32)
      ((utf8 s).length % 2 ^ 32) =
    utf8 s

/-- The names of the constants are in their places when every constant is read back. -/
theorem Reading.nameInPlace (h : Represents bits t s.tables s.names)
    (hw : Written before roots (entries roots) s) (hrange : ∀ node ∈ entries roots, NodeInRange node)
    {D : ℕ → ConstValue} (hread : Reading bits t {i | i < t.len} D)
    (hroots : ∀ k v, roots[k]? = some v → D k = v) {k : ℕ} {str : String}
    (hk : (storedAfter before (entries roots))[k]? = some str) (hle : before.length ≤ k) :
    NameInPlace (storedAfter before (entries roots)) k str := by
  have hlen : (storedAfter before (entries roots)).length < 2 ^ 32 := by
    rw [← hw.stores.length_refs]
    exact h.names_lt
  -- Every stored name is used by a record, which was read.
  obtain ⟨i, node, ks, hnode, hentry, hmem⟩ := hw.used k (List.getElem?_eq_some_iff.mp hk).1 hle
  have hi := (List.getElem?_eq_some_iff.mp hnode).1
  obtain ⟨r, hr, -, hks⟩ := id hentry
  have hrec : t.record bits i = some r := (h.record i).trans hr
  obtain ⟨r', hrec', -, hval⟩ := hread.reads i (ConstTable.lt_len_of_record hrec)
  obtain rfl : r = r' := Option.some.inj (hrec.symm.trans hrec')
  have hD : D i = node := by
    refine hread.eq_entry h hw hrange hroots le_rfl ?_ hnode
    exact hi.trans_eq (firstChild_length (F := constForest) roots).symm
  rw [hD] at hval
  have hfound := ((assemble_iff h hlen (hrange node (List.mem_of_getElem? hnode)) hentry hrec
    _).mp hval).2
  refine (nameOf_iff h hw.stores hk).mp ?_
  obtain ⟨j, hj⟩ := List.getElem?_of_mem hmem
  have hname := congrArg (·[j]?) hks
  have hread := congrArg (·[j]?) hfound
  simp only [List.getElem?_map, hj, Option.map_some] at hname hread
  cases hget : (nodeNames node)[j]? with
  | none =>
    rw [hget] at hname
    cases hname
  | some name =>
    rw [hget, Option.map_some, Option.some.injEq] at hname hread
    rw [hk, Option.some.injEq] at hname
    rw [hread, hname]

/-- The roots are read off the pools. -/
theorem roots_of_pools {D : ℕ → ConstValue} {first : ℕ} {pools : List (List ConstValue)}
    (hlt : first + pools.flatten.length < 2 ^ 32)
    (h : List.Forall₂ (fun range pool => ∀ k v, pool[k]? = some v →
      D (range.1.toNat + k) = v) (rangesFrom first pools) pools) {k : ℕ} {v : ConstValue}
    (hk : pools.flatten[k]? = some v) : D (first + k) = v := by
  induction pools generalizing first k with
  | nil => cases hk
  | cons pool pools ih =>
    obtain ⟨hpool, hrest⟩ := List.forall₂_cons.mp h
    rw [List.flatten_cons] at hk
    rw [List.flatten_cons, List.length_append] at hlt
    by_cases hin : k < pool.length
    · rw [List.getElem?_append_left hin] at hk
      have hD := hpool k v hk
      rwa [BitVec.toNat_ofNat, Nat.mod_eq_of_lt (by omega)] at hD
    · rw [List.getElem?_append_right (not_lt.mp hin)] at hk
      have hD := ih (by omega) hrest hk
      rwa [Nat.add_assoc, Nat.add_sub_cancel' (not_lt.mp hin)] at hD

/-! ## The round trip -/

/-- Without pools there is no region of constants to read. -/
theorem parse_none {bytes : List Byte} (h : SchemaBuilder.new.finish bits = .ok bytes) :
    ConstTable.parse bits bytes ≠ .ok t := by
  intro ht
  obtain ⟨hpool, hpoolReach⟩ := declare_eq .new Kind.stringPool rfl (by decide)
  obtain ⟨-, hreach⟩ := declare_eq ⟨[⟨Kind.stringPool, 0, [], none⟩]⟩ Kind.names rfl (by decide)
  have hfinish : SchemaBuilder.new.finish bits = (WireBuilder.mk
      [⟨Kind.stringPool, 0, [], none⟩, ⟨Kind.names, 0, [], none⟩]).finish bits := rfl
  obtain ⟨v, hparse, -, habsent⟩ :=
    KeleusmaWire.finish_regions (hreach (hpoolReach .new)) (hfinish.symm.trans h)
  obtain ⟨view, hview, ht⟩ := bind_eq_ok_iff.mp ht
  obtain rfl : v = view := Except.ok.inj (hparse.symm.trans (inContainer_eq_ok.mp hview))
  obtain ⟨_, -, ht⟩ := bind_eq_ok_iff.mp ht
  obtain ⟨_, -, ht⟩ := bind_eq_ok_iff.mp ht
  obtain ⟨_, -, ht⟩ := bind_eq_ok_iff.mp ht
  obtain ⟨_, -, ht⟩ := bind_eq_ok_iff.mp ht
  obtain ⟨e, he, -⟩ := bind_eq_ok_iff.mp ht
  cases (habsent Kind.consts rfl).symm.trans (okOr_eq_ok.mp he)

/-- What the artifact of pools parses to. -/
theorem parse_pools {pools : List (List ConstValue)} {bytes : List Byte} (hpools : pools ≠ [])
    (h : (SchemaBuilder.new.addConstantPools pools).1.finish bits = .ok bytes) :
    ∃ t s, ConstTable.parse bits bytes = .ok t ∧ Represents bits t s.tables s.names ∧
      Written [] pools.flatten (entries pools.flatten) s := by
  obtain ⟨hbuilder, -⟩ := addConstantPools_eq .new pools
  obtain ⟨s, hs, hw⟩ := flatten_written stores_empty pools.flatten
  have hwants : (false || !pools.isEmpty) = true := by
    cases pools with
    | nil => exact absurd rfl hpools
    | cons => rfl
  rw [hbuilder] at h
  obtain ⟨t, hparse, hrep⟩ := parse_finish .new hwants hs hw h
  exact ⟨t, s, hparse, hrep, hw⟩

/-- **Pools that stand in a row among the roots are read back** when the names are in their
places. -/
theorem decodeConstantPools_of {pools : List (List ConstValue)} {bytes : List Byte} {first : ℕ}
    (hparse : ConstTable.parse bits bytes = .ok t) (hrep : Represents bits t s.tables s.names)
    (hw : Written before roots (entries roots) s) (hrange : ∀ node ∈ entries roots, NodeInRange node)
    (hplace : NamesInPlace (storedAfter before (entries roots)))
    (hroots : first + pools.flatten.length ≤ roots.length)
    (hpools : ∀ k v, pools.flatten[k]? = some v → roots[first + k]? = some v) :
    decodeConstantPools bits bytes (rangesFrom first pools) = .ok pools := by
  have hcount : roots.length ≤ s.tables.consts.length := by
    rw [hw.length_consts, entries, order_eq, List.length_append]
    exact Nat.le_add_right _ _
  have hlt := hrep.consts_lt
  have husize := hrep.consts_lt_usize
  refine bind_eq_ok_iff.mpr ⟨t, hparse, bind_eq_ok_iff.mpr ⟨(), ?_, ?_⟩⟩
  · rw [forM_eq_ok_iff]
    intro range hmem
    obtain ⟨p, c, rfl, hle⟩ := mem_rangesFrom hmem
    have hp : (BitVec.ofNat 32 p).toNat = p := Nat.mod_eq_of_lt (by omega)
    have hc : (BitVec.ofNat 32 c).toNat = c := Nat.mod_eq_of_lt (by omega)
    have hpresent : BitVec.ofNat 32 p ≠ absent := by
      intro heq
      have hnat := congrArg BitVec.toNat heq
      rw [hp] at hnat
      have habsent : absent.toNat = 2 ^ 32 - 1 := rfl
      omega
    rw [checkRange, if_neg hpresent, hp, hc]
    refine bind_eq_ok_iff.mpr ⟨p + c, ?_, if_neg (by rw [hrep.len]; omega)⟩
    exact okOr_eq_ok.mpr (Overflow.checkedAdd_eq_some.mpr ⟨by omega, rfl⟩)
  · rw [hrep.len, hw.length_consts]
    have hsweep := sweep_rebuilds hrep hw hrange hplace le_rfl
    rw [pending_length] at hsweep
    refine bind_eq_ok_iff.mpr ⟨_, hsweep, ?_⟩
    exact takePools_of (show first + pools.flatten.length < 2 ^ 32 by omega) fun k v hk =>
      getElem?_pending_zero (hpools k v hk)

/-- **The pools are read back exactly when the names are in their places.** -/
theorem decodeConstantPools_iff {pools : List (List ConstValue)} {bytes : List Byte}
    (hrange : ∀ node ∈ entries pools.flatten, NodeInRange node)
    (h : (SchemaBuilder.new.addConstantPools pools).1.finish bits = .ok bytes) :
    decodeConstantPools bits bytes (SchemaBuilder.new.addConstantPools pools).2 = .ok pools ↔
      pools ≠ [] ∧ NamesInPlace (storedNames (entries pools.flatten)) := by
  by_cases hpools : pools = []
  · subst hpools
    refine iff_of_false (fun hdecode => ?_) fun hne => hne.1 rfl
    obtain ⟨t, hparse, -⟩ := bind_eq_ok_iff.mp hdecode
    exact parse_none h hparse
  obtain ⟨t, s, hparse, hrep, hw⟩ := parse_pools hpools h
  have hcount : pools.flatten.length ≤ s.tables.consts.length := by
    rw [hw.length_consts, entries, order_eq, List.length_append]
    exact Nat.le_add_right _ _
  have hlt := hrep.consts_lt
  obtain ⟨-, hranges⟩ := addConstantPools_eq .new pools
  have hstart : SchemaBuilder.new.constRoots.length = 0 := rfl
  rw [hranges, hstart]
  constructor
  · intro hdecode
    obtain ⟨D, hread, hall⟩ := decodeConstantPools_reads hparse hdecode
    refine ⟨hpools, fun k str hk => ?_⟩
    refine hread.nameInPlace hrep hw hrange (fun k v hk => ?_) hk (Nat.zero_le k)
    rw [← Nat.zero_add k]
    exact roots_of_pools (show 0 + pools.flatten.length < 2 ^ 32 by omega)
      (hall.imp fun range pool hpool k v hk => (hpool k v hk).2) hk
  · rintro ⟨-, hplace⟩
    refine decodeConstantPools_of hparse hrep hw hrange hplace (Nat.zero_add _).le fun k v hk => ?_
    rwa [Nat.zero_add]

/-- Names that take less than `2 ^ 32` bytes are in their places. -/
theorem namesInPlace_of_lt {l : List String} (h : (l.flatMap utf8).length < 2 ^ 32) :
    NamesInPlace l := by
  intro k s hk
  obtain ⟨hklt, rfl⟩ := List.getElem?_eq_some_iff.mp hk
  have hsplit : l.flatMap utf8 =
      (l.take k).flatMap utf8 ++ (utf8 l[k] ++ (l.drop (k + 1)).flatMap utf8) := by
    rw [← List.flatMap_cons, ← List.drop_eq_getElem_cons hklt, ← List.flatMap_append,
      List.take_append_drop]
  rw [hsplit, List.length_append, List.length_append] at h
  rw [hsplit, Nat.mod_eq_of_lt (by omega), Nat.mod_eq_of_lt (by omega)]
  exact KeleusmaWire.slice_append _ _ _

/-- **The constants of an artifact.** The pools are read back exactly when there are some and the
names are in their places. The artifact of some pools has a table, whose ranges all point strictly
forward, inside the table. And on any table the two decoders agree on every constant that both
accept, and neither reads out of bounds. -/
theorem decodeConstantPools_finish (bits : ℕ) :
    (∀ (pools : List (List ConstValue)) (bytes : List Byte),
      (∀ node ∈ entries pools.flatten, NodeInRange node) →
      (SchemaBuilder.new.addConstantPools pools).1.finish bits = .ok bytes →
      (decodeConstantPools bits bytes (SchemaBuilder.new.addConstantPools pools).2 = .ok pools ↔
        pools ≠ [] ∧ NamesInPlace (storedNames (entries pools.flatten))) ∧
      (pools = [] → ∀ t, ConstTable.parse bits bytes ≠ .ok t) ∧
      (pools ≠ [] → ∃ t, ConstTable.parse bits bytes = .ok t ∧
        ∀ i r, t.record bits i = some r → r.isComposite →
          i < r.asRange.1.toNat ∧ r.asRange.1.toNat + r.asRange.2.toNat ≤ t.len)) ∧
    ∀ (bytes : List Byte) (t : ConstTable) (ranges : List ConstRange),
      ConstTable.parse bits bytes = .ok t →
      (∀ pools, decodeConstantPools bits bytes ranges = .ok pools →
        List.Forall₂ (fun range pool => ∀ k v w, pool[k]? = some v →
          t.value bits (range.1.toNat + k) = .ok w → v = w) ranges pools) ∧
      decodeConstantPools bits bytes ranges ≠ .error .panicked ∧
      ∀ i, t.value bits i ≠ .error .panicked := by
  constructor
  · intro pools bytes hrange h
    refine ⟨decodeConstantPools_iff hrange h, ?_, ?_⟩
    · rintro rfl t
      exact parse_none h
    · intro hpools
      obtain ⟨t, s, hparse, hrep, hw⟩ := parse_pools hpools h
      refine ⟨t, hparse, fun i r hr hcomp => ?_⟩
      rw [hrep.len]
      exact hw.forward hrep.consts_lt ((hrep.record i).symm.trans hr) hcomp
  · intro bytes t ranges hparse
    exact ⟨fun pools hpools =>
      value_eq_pool hparse hpools, decodeConstantPools_avoids hparse ranges,
      value_avoids (names_lt_of_parse hparse)⟩

/-! ## A small pool -/

/-- A pair of a number and a string. -/
def pairPool : List ConstValue := [.tuple [.int (-1), .staticStr "a"]]

theorem entries_pairPool : entries pairPool =
    [.tuple [.int (-1), .staticStr "a"], .int (-1), .staticStr "a"] := by
  simp [entries, pairPool, order_cons, constForest, children]

/-- What the pair is flattened to. -/
def pairWritten : Flattening :=
  [.tuple [.int (-1), .staticStr "a"], .int (-1), .staticStr "a"].foldl Flattening.visit
    ⟨1, .empty, ⟨[], [], []⟩⟩

/-- The artifact of the pair. -/
def pairBytes : List Byte :=
  ((WireBuilder.mk (constRegions pairWritten.tables pairWritten.names)).finish 64).toOption.getD []

theorem pair_finish :
    (SchemaBuilder.new.addConstantPools [pairPool]).1.finish 64 = .ok pairBytes := by
  have hs : flatten pairPool .empty = (pairWritten.tables, pairWritten.names) := by
    rw [flatten, flattenLoop_eq_foldl, entries_pairPool]
    rfl
  refine (finish_constants rfl rfl rfl hs).1.trans ?_
  have hok : ((WireBuilder.mk (constRegions pairWritten.tables pairWritten.names)).finish
    64).toOption.isSome = true := by decide +kernel
  rw [pairBytes]
  cases h : (WireBuilder.mk (constRegions pairWritten.tables pairWritten.names)).finish 64 with
  | error e =>
    rw [h] at hok
    cases hok
  | ok bytes => rfl

/-- The pair is read back. -/
theorem pair_decodes : decodeConstantPools 64 pairBytes [(0, 1)] = .ok [pairPool] := by
  have hrange : ∀ node ∈ entries [pairPool].flatten, NodeInRange node := by
    rw [List.flatten_singleton, entries_pairPool]
    simp [NodeInRange]
  refine ((decodeConstantPools_finish 64).1 [pairPool] pairBytes hrange pair_finish).1.mpr
    ⟨nofun, ?_⟩
  rw [List.flatten_singleton, entries_pairPool]
  exact namesInPlace_of_lt (by decide +kernel)

/-! ## A long string -/

/-- A string of a number of bytes. -/
def letters (n : ℕ) : String := String.ofList (List.replicate n 'a')

theorem utf8_append (s t : String) : utf8 (s ++ t) = utf8 s ++ utf8 t := by
  have hbytes : (s ++ t).toUTF8.data.toList = s.toUTF8.data.toList ++ t.toUTF8.data.toList := by
    rw [← Array.toList_append, ← ByteArray.data_append]
    exact congrArg (·.data.toList) String.toByteArray_append
  rw [utf8, hbytes, List.map_append, utf8, utf8]

theorem length_utf8_letters (n : ℕ) : (utf8 (letters n)).length = n := by
  induction n with
  | zero => rfl
  | succ n ih =>
    have hcons : letters (n + 1) = "a" ++ letters n := by
      rw [letters, letters, List.replicate_succ, ← List.singleton_append, String.ofList_append]
    rw [hcons, utf8_append, List.length_append, ih, Nat.add_comm]
    rfl

theorem entries_staticStr (s : String) : entries [.staticStr s] = [.staticStr s] := by
  simp [entries, order_cons, constForest, children]

/-- The artifact of a string of `2 ^ 32` bytes is built. -/
theorem finish_letters {s : String} (hs : (utf8 s).length = 2 ^ 32) :
    ∃ bytes, (SchemaBuilder.new.addConstantPools [[.staticStr s]]).1.finish 64 = .ok bytes := by
  obtain ⟨f, hf⟩ : ∃ f, f = Flattening.visit ⟨1, .empty, ⟨[], [], []⟩⟩ (.staticStr s) := ⟨_, rfl⟩
  have hflat : flatten [.staticStr s] .empty = (f.tables, f.names) := by
    rw [flatten, flattenLoop_eq_foldl, entries_staticStr, hf]
    rfl
  have hconsts : f.tables.consts.length = 1 := by rw [hf]; rfl
  have hstruct : f.tables.structAux = [] := by rw [hf]; rfl
  have henum : f.tables.enumAux = [] := by rw [hf]; rfl
  have hrefs : f.names.refs.length = 1 := by rw [hf]; rfl
  have hpool : f.names.pool = utf8 s := by rw [hf]; rfl
  rw [(finish_constants rfl rfl rfl hflat).1]
  have hwords : ((WireBuilder.mk (constRegions f.tables f.names)).emits.map
      KeleusmaWire.Emit.words).sum = 2 ^ 29 + 3 := by
    have hstride₁ : WireRecord.stride ConstRecord = 16 := rfl
    have hstride₂ : WireRecord.stride NameRef = 8 := rfl
    simp only [WireBuilder.emits, constRegions, List.flatMap_cons, List.flatMap_nil, RegionBuf.emit,
      List.append_nil, List.cons_append, List.nil_append, List.map_cons, List.map_nil, List.sum_cons,
      List.sum_nil, KeleusmaWire.Emit.words, LawfulCodec.length_flatMap, hconsts, hstruct, henum,
      hrefs, hpool, hs, hstride₁, hstride₂, List.length_nil]
    omega
  have hcount : (WireBuilder.mk (constRegions f.tables f.names)).emits.length = 5 := rfl
  apply KeleusmaWire.finish_fits
  · rw [hcount]
    omega
  · rw [hcount, hwords]
    omega
  · rw [hcount, hwords]
    omega

/-- A string of `2 ^ 32` bytes is not read back, so decoding does not return every list of pools. -/
theorem letters_lost :
    ¬ ∀ (bits : ℕ) (pools : List (List ConstValue)) (bytes : List Byte),
      (∀ node ∈ entries pools.flatten, NodeInRange node) →
      (SchemaBuilder.new.addConstantPools pools).1.finish bits = .ok bytes →
      decodeConstantPools bits bytes (SchemaBuilder.new.addConstantPools pools).2 = .ok pools := by
  intro h
  have hs := length_utf8_letters (2 ^ 32)
  obtain ⟨s, hstr⟩ : ∃ s, s = letters (2 ^ 32) := ⟨_, rfl⟩
  rw [← hstr] at hs
  obtain ⟨bytes, hfinish⟩ := finish_letters hs
  have hrange : ∀ node ∈ entries [[ConstValue.staticStr s]].flatten, NodeInRange node := by
    rw [List.flatten_singleton, entries_staticStr]
    simp [NodeInRange]
  have hplace := ((decodeConstantPools_iff hrange hfinish).mp (h 64 _ bytes hrange hfinish)).2
  rw [List.flatten_singleton, entries_staticStr] at hplace
  have hslice := hplace 0 s rfl
  have hlength := congrArg List.length hslice
  rw [hs, Nat.mod_self, KeleusmaWire.slice, List.take_zero, List.length_nil] at hlength
  omega

end Keleusma.Schema
