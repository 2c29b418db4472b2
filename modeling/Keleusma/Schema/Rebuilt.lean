import Keleusma.Schema.Bounds
import Keleusma.Schema.Flattened

/-!
# What is rebuilt

A table that represents a flattened forest is read back constant by constant: a record makes its
constant out of the constant's children exactly when its names are found (`assemble_iff`). The sweep
finds the children of every composite in the run that the record names, so it rebuilds the roots
(`sweep_rebuilds`).
-/

namespace Keleusma.Schema

open KeleusmaWire (Byte)
open BreadthFirst Outcomes

/-! ## Tables that represent a forest -/

/-- The names are found at their places, as far as 32 bits tell them. -/
def NamesInPlace (l : List String) : Prop :=
  ∀ k s, l[k]? = some s →
    KeleusmaWire.slice (l.flatMap utf8) (((l.take k).flatMap utf8).length % 2 ^ 32)
      ((utf8 s).length % 2 ^ 32) = utf8 s

/-- The scalars of a constant are in the range of their types. -/
def NodeInRange : ConstValue → Prop
  | .int v | .fixed v => -2 ^ 63 ≤ v ∧ v < 2 ^ 63
  | .byte v => v < 2 ^ 8
  | .float v => v < 2 ^ 64
  | .enum _ _ discriminant _ => ∀ d ∈ discriminant, -2 ^ 63 ≤ d ∧ d < 2 ^ 63
  | _ => True

/-- The table reads as the tables that were written. -/
structure Represents (bits : ℕ) (t : ConstTable) (tables : Tables) (n : Names) : Prop where
  record : ∀ i, t.record bits i = tables.consts[i]?
  len : t.len = tables.consts.length
  structAux : ∀ i, t.structAux.getAs StructAux bits i = tables.structAux[i]?
  enumAux : ∀ i, t.enumAux.getAs EnumAux bits i = tables.enumAux[i]?
  names : ∀ i, t.names.getAs NameRef bits i = n.refs[i]?
  pool : n.pool <+: t.pool.bytes
  pool_lt : t.pool.bytes.length < 2 ^ bits
  consts_lt : tables.consts.length < 2 ^ 31
  consts_lt_usize : tables.consts.length < 2 ^ bits
  structAux_lt : tables.structAux.length < 2 ^ 32
  enumAux_lt : tables.enumAux.length < 2 ^ 32
  names_lt : n.refs.length < 2 ^ 32

variable {bits : ℕ} {t : ConstTable} {tables : Tables} {n : Names} {l : List String}

theorem fromUtf8_eq_some {b : List Byte} {s : String} : fromUtf8 b = some s ↔ b = utf8 s := by
  constructor
  · intro h
    rw [fromUtf8, String.fromUTF8?] at h
    split_ifs at h with hvalid
    obtain rfl := Option.some.inj h
    have hdata : (String.fromUTF8 ⟨(b.map UInt8.ofBitVec).toArray⟩ hvalid).toUTF8 =
        ⟨(b.map UInt8.ofBitVec).toArray⟩ := rfl
    rw [utf8, hdata, List.toList_toArray, List.map_map]
    exact (List.map_id _).symm
  · rintro rfl
    exact fromUtf8_utf8 s

/-- A pool and its index table read as the names that were stored. -/
structure NamesRead (bits : ℕ) (strings : KeleusmaWire.Pool) (refs : KeleusmaWire.RecordTable)
    (n : Names) : Prop where
  names : ∀ i, refs.getAs NameRef bits i = n.refs[i]?
  pool : n.pool <+: strings.bytes
  pool_lt : strings.bytes.length < 2 ^ bits
  names_lt : n.refs.length < 2 ^ 32

theorem Represents.namesRead (h : Represents bits t tables n) : NamesRead bits t.pool t.names n :=
  ⟨h.names, h.pool, h.pool_lt, h.names_lt⟩

/-- The bytes at the place of a name. -/
theorem NamesRead.bytes {strings : KeleusmaWire.Pool} {refs : KeleusmaWire.RecordTable}
    (h : NamesRead bits strings refs n) (hstores : Stores n l) {k : ℕ} {s : String}
    (hk : l[k]? = some s) :
    ((refs.getAs NameRef bits (BitVec.ofNat 32 k).toNat).bind fun r =>
      strings.slice bits r.offset r.length) =
        some (KeleusmaWire.slice (l.flatMap utf8) (((l.take k).flatMap utf8).length % 2 ^ 32)
          ((utf8 s).length % 2 ^ 32)) := by
  have hklt := (List.getElem?_eq_some_iff.mp hk).1
  have hnat : (BitVec.ofNat 32 k).toNat = k := by
    have := h.names_lt
    rw [hstores.length_refs] at this
    exact Nat.mod_eq_of_lt (by omega)
  have hsum : ((l.take k).flatMap utf8).length + (utf8 s).length ≤ n.pool.length := by
    have hsplit : l = l.take k ++ s :: l.drop (k + 1) := by
      conv_lhs => rw [← List.take_append_drop k l]
      rw [List.drop_eq_getElem_cons hklt, (List.getElem?_eq_some_iff.mp hk).2]
    have hlen : (l.flatMap utf8).length = ((l.take k).flatMap utf8).length +
        ((utf8 s).length + ((l.drop (k + 1)).flatMap utf8).length) := by
      conv_lhs => rw [hsplit]
      rw [List.flatMap_append, List.flatMap_cons, List.length_append, List.length_append]
    rw [hstores.pool, hlen]
    omega
  have hle := h.pool.length_le
  have hmod₁ := Nat.mod_le ((l.take k).flatMap utf8).length (2 ^ 32)
  have hmod₂ := Nat.mod_le (utf8 s).length (2 ^ 32)
  have hlt := h.pool_lt
  rw [hnat, h.names, hstores.ref k s hk, Option.bind_some, KeleusmaWire.Pool.slice_eq_some,
    BitVec.toNat_ofNat, BitVec.toNat_ofNat]
  refine ⟨by omega, by omega, ?_⟩
  obtain ⟨rest, hrest⟩ := h.pool
  rw [← hrest, hstores.pool, KeleusmaWire.slice, KeleusmaWire.slice, List.drop_append_of_le_length (by
    rw [← hstores.pool]; omega), List.take_append_of_le_length (by
    rw [List.length_drop, ← hstores.pool]; omega)]

/-- **A name is found exactly when it is in its place.** -/
theorem nameOf_iff (h : Represents bits t tables n) (hstores : Stores n l) {k : ℕ} {s : String}
    (hk : l[k]? = some s) : t.nameOf bits (BitVec.ofNat 32 k) = .ok s ↔
      KeleusmaWire.slice (l.flatMap utf8) (((l.take k).flatMap utf8).length % 2 ^ 32)
        ((utf8 s).length % 2 ^ 32) = utf8 s := by
  rw [ConstTable.nameOf, ConstTable.nameBytes, Option.bind_eq_bind,
    h.namesRead.bytes hstores hk]
  exact okOr_eq_ok.trans fromUtf8_eq_some

/-- The fields are read off as they are when their values are, and their names are found. -/
theorem namedFields_iff {first : BitVec 32} {k : ℕ} {values : List ConstValue}
    {fields : List (String × ConstValue)}
    (hfirst : fields = [] ∨ first.toNat + k + fields.length ≤ 2 ^ 32) :
    t.namedFields bits first k values = .ok fields ↔ values = fields.map (·.2) ∧
      (List.range fields.length).map (fun j => t.nameOf bits (first + BitVec.ofNat 32 (k + j))) =
        fields.map fun field => .ok field.1 := by
  induction values generalizing k fields with
  | nil =>
    rw [ConstTable.namedFields, Except.ok.injEq]
    constructor
    · rintro rfl
      exact ⟨rfl, rfl⟩
    · rintro ⟨hvalues, -⟩
      exact (List.map_eq_nil_iff.mp hvalues.symm).symm
  | cons v values ih =>
    cases fields with
    | nil =>
      constructor
      · intro h
        rw [ConstTable.namedFields] at h
        split_ifs at h
        · cases h
        · obtain ⟨name, -, hrest⟩ := bind_eq_ok_iff.mp h
          obtain ⟨rest, -, hnil⟩ := bind_eq_ok_iff.mp hrest
          cases hnil
      · rintro ⟨h, -⟩
        cases h
    | cons field fields =>
      obtain ⟨name, w⟩ := field
      have hsum : first.toNat + k + (fields.length + 1) ≤ 2 ^ 32 := by
        obtain h | h := hfirst
        · cases h
        · exact h
      have hrest := @ih (k + 1) fields (.inr (by omega))
      have hshift : (List.range fields.length).map
          (fun j => t.nameOf bits (first + BitVec.ofNat 32 (k + 1 + j))) =
          (List.range fields.length).map
            ((fun j => t.nameOf bits (first + BitVec.ofNat 32 (k + j))) ∘ Nat.succ) := by
        apply List.map_congr_left
        intro j _
        rw [Function.comp_apply, Nat.add_assoc, Nat.add_comm 1 j]
      rw [hshift] at hrest
      rw [ConstTable.namedFields, if_neg (by omega), List.length_cons, List.range_succ_eq_map,
        List.map_cons, List.map_cons, List.map_cons, List.map_map, Nat.add_zero, List.cons.injEq,
        List.cons.injEq]
      constructor
      · intro h
        obtain ⟨name', hname, h⟩ := bind_eq_ok_iff.mp h
        obtain ⟨fields', hfields, h⟩ := bind_eq_ok_iff.mp h
        cases h
        obtain ⟨rfl, hnames⟩ := hrest.mp hfields
        exact ⟨⟨rfl, rfl⟩, hname, hnames⟩
      · rintro ⟨⟨rfl, rfl⟩, hname, hnames⟩
        rw [bind_eq_ok_iff]
        exact ⟨name, hname, bind_eq_ok_iff.mpr ⟨fields, hrest.mpr ⟨rfl, hnames⟩, rfl⟩⟩

theorem assemble_struct {i : ℕ} {r : ConstRecord} (hr : r.tag.toNat = Tag.struct)
    {values : List ConstValue} {v : ConstValue} : assemble bits t i r values = .ok v ↔
      ∃ aux fields typeName, t.structAuxOf bits i = some aux ∧
        t.namedFields bits aux.fieldNamesFirst 0 values = .ok fields ∧
        t.nameOf bits aux.typeName = .ok typeName ∧ v = .struct typeName fields := by
  simp only [assemble, ConstTable.entryValue, hr, Tag.tuple, Tag.array, Tag.struct, reduceIte,
    Nat.reduceEqDiff, map_eq_ok_iff, bind_eq_ok_iff, pure_eq_ok_iff, okOr_eq_ok, Except.ok.injEq]
  grind

theorem assemble_enum {i : ℕ} {r : ConstRecord} (hr : r.tag.toNat = Tag.enum)
    {values : List ConstValue} {v : ConstValue} : assemble bits t i r values = .ok v ↔
      ∃ aux discriminant typeName variant, t.enumAuxOf bits i = some (aux, discriminant) ∧
        t.nameOf bits aux.typeName = .ok typeName ∧ t.nameOf bits aux.variant = .ok variant ∧
        v = .enum typeName variant discriminant values := by
  simp only [assemble, ConstTable.entryValue, hr, Tag.tuple, Tag.array, Tag.struct, Tag.enum,
    reduceIte, Nat.reduceEqDiff, map_eq_ok_iff, bind_eq_ok_iff, pure_eq_ok_iff, okOr_eq_ok,
    Except.ok.injEq]
  grind

/-- **A record makes its constant** exactly when its children are those of the constant and its
names are found. -/
theorem assemble_iff (h : Represents bits t tables n) (hlen : l.length < 2 ^ 32) {first i : ℕ}
    {node : ConstValue} {ks : List ℕ} (hrange : NodeInRange node)
    (hentry : EntryAt tables l first i node ks) {r : ConstRecord} (hr : t.record bits i = some r)
    (values : List ConstValue) : assemble bits t i r values = .ok node ↔
      (r.isComposite → values = children node) ∧
        ks.map (fun k => t.nameOf bits (BitVec.ofNat 32 k)) =
          (nodeNames node).map fun name => .ok name.2 := by
  obtain ⟨r', hr', hdesc, hks⟩ := hentry
  obtain rfl : r = r' := Option.some.inj (hr.symm.trans ((h.record i).trans hr'))
  have hscalar (hs : ¬ r.isComposite) (hnil : ks = []) (hnames : nodeNames node = [])
      (hval : t.scalarValue bits r = .ok node) : assemble bits t i r values = .ok node ↔
        (r.isComposite → values = children node) ∧
          ks.map (fun k => t.nameOf bits (BitVec.ofNat 32 k)) =
            (nodeNames node).map fun name => .ok name.2 := by
    rw [assemble_scalar hs, hnil, hnames]
    exact iff_of_true hval ⟨fun hc => absurd hc hs, rfl⟩
  cases node
  case unit =>
    obtain ⟨rfl, hnil⟩ := hdesc
    exact hscalar Bool.false_ne_true hnil rfl rfl
  case none =>
    obtain ⟨rfl, hnil⟩ := hdesc
    exact hscalar Bool.false_ne_true hnil rfl rfl
  case bool b =>
    obtain ⟨rfl, hnil⟩ := hdesc
    refine hscalar Bool.false_ne_true hnil rfl ?_
    cases b <;> rfl
  case int v =>
    obtain ⟨rfl, hnil⟩ := hdesc
    refine hscalar Bool.false_ne_true hnil rfl ?_
    show Except.ok (ConstValue.int (BitVec.ofInt 64 v).toInt) = _
    rw [BitVec.toInt_ofInt_eq_self (by decide) hrange.1 hrange.2]
  case byte v =>
    obtain ⟨rfl, hnil⟩ := hdesc
    refine hscalar Bool.false_ne_true hnil rfl ?_
    have hv : v < 2 ^ 8 := hrange
    have hnat : ((BitVec.ofNat 64 v).setWidth 8).toNat = v := by
      rw [BitVec.toNat_setWidth, BitVec.toNat_ofNat]
      omega
    show Except.ok (ConstValue.byte ((BitVec.ofNat 64 v).setWidth 8).toNat) = _
    rw [hnat]
  case fixed v =>
    obtain ⟨rfl, hnil⟩ := hdesc
    refine hscalar Bool.false_ne_true hnil rfl ?_
    show Except.ok (ConstValue.fixed (BitVec.ofInt 64 v).toInt) = _
    rw [BitVec.toInt_ofInt_eq_self (by decide) hrange.1 hrange.2]
  case float v =>
    obtain ⟨rfl, hnil⟩ := hdesc
    refine hscalar Bool.false_ne_true hnil rfl ?_
    have hv : v < 2 ^ 64 := hrange
    show Except.ok (ConstValue.float (BitVec.ofNat 64 v).toNat) = _
    rw [BitVec.toNat_ofNat, Nat.mod_eq_of_lt hv]
  case staticStr s =>
    obtain ⟨k, rfl, rfl⟩ := hdesc
    have hs : ¬ (ConstRecord.mk (BitVec.ofNat 16 Tag.staticStr) 0 (BitVec.ofNat 32 k)
      0).isComposite := Bool.false_ne_true
    rw [assemble_scalar hs]
    show (t.nameOf bits (BitVec.ofNat 32 k) >>= fun str => .ok (ConstValue.staticStr str)) =
      .ok (ConstValue.staticStr s) ↔ _ ∧ [t.nameOf bits (BitVec.ofNat 32 k)] = [.ok s]
    rw [bind_eq_ok_iff, List.cons.injEq]
    constructor
    · rintro ⟨str, hstr, heq⟩
      cases heq
      exact ⟨fun hc => absurd hc hs, hstr, rfl⟩
    · rintro ⟨-, hstr, -⟩
      exact ⟨s, hstr, rfl⟩
  case tuple items =>
    obtain ⟨rfl, rfl⟩ := hdesc
    show Except.ok (ConstValue.tuple values) = _ ↔ _
    rw [Except.ok.injEq, ConstValue.tuple.injEq]
    exact ⟨fun hv => ⟨fun _ => hv, rfl⟩, fun hv => hv.1 rfl⟩
  case array items =>
    obtain ⟨rfl, rfl⟩ := hdesc
    show Except.ok (ConstValue.array values) = _ ↔ _
    rw [Except.ok.injEq, ConstValue.array.injEq]
    exact ⟨fun hv => ⟨fun _ => hv, rfl⟩, fun hv => hv.1 rfl⟩
  case struct typeName fields =>
    obtain ⟨a, k, namesFirst, haux, rfl, hrec⟩ := hdesc
    have htag : r.tag.toNat = Tag.struct := by rw [hrec]; rfl
    have hcomp : r.isComposite := isCompositeTag_iff.mpr (.inr (.inr (.inl htag)))
    have hnat : (BitVec.ofNat 32 a).toNat = a :=
      Nat.mod_eq_of_lt ((List.getElem?_eq_some_iff.mp haux).1.trans h.structAux_lt)
    have hauxOf : t.structAuxOf bits i =
        some ⟨BitVec.ofNat 32 k, BitVec.ofNat 32 namesFirst⟩ := by
      rw [ConstTable.structAuxOf, hr, Option.bind_eq_bind, Option.bind_some,
        if_neg (not_not.mpr htag), h.structAux, ← haux, hrec]
      exact congrArg (tables.structAux[·]?) hnat
    -- The last of the names bounds the first of them.
    have hfirst : fields = [] ∨
        (BitVec.ofNat 32 namesFirst).toNat + 0 + fields.length ≤ 2 ^ 32 := by
      by_cases hnil : fields = []
      · exact .inl hnil
      · have hpos : 0 < fields.length := List.length_pos_iff.mpr hnil
        have hlast := congrArg (·[fields.length]?) hks
        rw [List.getElem?_map, List.getElem?_map, nodeNames] at hlast
        obtain ⟨m, hm⟩ := Nat.exists_eq_add_of_lt hpos
        rw [Nat.zero_add] at hm
        rw [hm, List.getElem?_cons_succ, List.getElem?_cons_succ, List.getElem?_map,
          List.getElem?_range (by omega), List.getElem?_map,
          List.getElem?_eq_getElem (by omega)] at hlast
        have hlt : namesFirst + m < l.length :=
          (List.getElem?_eq_some_iff.mp (Option.some.inj hlast)).1
        have hmod := Nat.mod_le namesFirst (2 ^ 32)
        rw [BitVec.toNat_ofNat]
        exact .inr (by omega)
    have hrow : ((List.range fields.length).map (namesFirst + ·)).map
        (fun k => t.nameOf bits (BitVec.ofNat 32 k)) = (List.range fields.length).map
          fun j => t.nameOf bits (BitVec.ofNat 32 namesFirst + BitVec.ofNat 32 (0 + j)) := by
      rw [List.map_map]
      apply List.map_congr_left
      intro j _
      rw [Nat.zero_add, ofNat_add_ofNat]
      rfl
    have hnames : (nodeNames (.struct typeName fields)).map
        (fun name => (.ok name.2 : Except SchemaError String)) =
          .ok typeName :: fields.map fun field => .ok field.1 := by
      rw [nodeNames, List.map_cons, List.map_map]
      rfl
    rw [assemble_struct htag, hauxOf, List.map_cons, hrow, hnames, List.cons.injEq]
    constructor
    · rintro ⟨aux, fields', typeName', haux', hfields, hname, heq⟩
      cases haux'
      cases heq
      obtain ⟨hvalues, hrest⟩ := (namedFields_iff hfirst).mp hfields
      exact ⟨fun _ => hvalues, hname, hrest⟩
    · rintro ⟨hvalues, hname, hrest⟩
      exact ⟨_, fields, typeName, rfl,
        (namedFields_iff hfirst).mpr ⟨hvalues hcomp, hrest⟩, hname, rfl⟩
  case enum typeName variant discriminant fields =>
    obtain ⟨a, k₁, k₂, haux, rfl, hrec⟩ := hdesc
    have htag : r.tag.toNat = Tag.enum := by rw [hrec]; rfl
    have hcomp : r.isComposite := isCompositeTag_iff.mpr (.inr (.inr (.inr htag)))
    have hnat : (BitVec.ofNat 32 a).toNat = a :=
      Nat.mod_eq_of_lt ((List.getElem?_eq_some_iff.mp haux).1.trans h.enumAux_lt)
    have hauxOf : t.enumAuxOf bits i = some (⟨BitVec.ofNat 32 k₁, BitVec.ofNat 32 k₂,
        BitVec.ofInt 64 (discriminant.getD 0)⟩, discriminant) := by
      have haux' : t.enumAux.getAs EnumAux bits r.aux.toNat = some ⟨BitVec.ofNat 32 k₁,
          BitVec.ofNat 32 k₂, BitVec.ofInt 64 (discriminant.getD 0)⟩ := by
        rw [h.enumAux, ← haux, hrec]
        exact congrArg (tables.enumAux[·]?) hnat
      have hflag : r.flags &&& flagHasDiscriminant ≠ 0 ↔ discriminant.isSome := by
        rw [hrec]
        cases discriminant with
        | none =>
          have hzero : ¬ (0 : BitVec 16) &&& flagHasDiscriminant ≠ 0 := by decide
          exact iff_of_false hzero Bool.false_ne_true
        | some d =>
          have hone : flagHasDiscriminant &&& flagHasDiscriminant ≠ 0 := by decide
          exact iff_of_true hone rfl
      have hdisc : (if r.flags &&& flagHasDiscriminant ≠ 0 then
          some (BitVec.ofInt 64 (discriminant.getD 0)).toInt else none) = discriminant := by
        cases discriminant with
        | none => rw [if_neg (mt hflag.mp Bool.false_ne_true)]
        | some d =>
          have hd := hrange d rfl
          rw [if_pos (hflag.mpr rfl), Option.getD_some,
            BitVec.toInt_ofInt_eq_self (by decide) hd.1 hd.2]
      rw [ConstTable.enumAuxOf, hr, Option.bind_eq_bind, Option.bind_some,
        if_neg (not_not.mpr htag), haux']
      exact congrArg (fun d => some (_, d)) hdisc
    rw [assemble_enum htag, hauxOf]
    show _ ↔ _ ∧ [t.nameOf bits (BitVec.ofNat 32 k₁), t.nameOf bits (BitVec.ofNat 32 k₂)] =
      [.ok typeName, .ok variant]
    rw [List.cons.injEq, List.cons.injEq]
    constructor
    · rintro ⟨aux, disc, typeName', variant', haux', hname, hvariant, heq⟩
      cases haux'
      cases heq
      exact ⟨fun _ => rfl, hname, hvariant, rfl⟩
    · rintro ⟨hvalues, hname, hvariant, -⟩
      rw [hvalues hcomp]
      exact ⟨_, _, typeName, variant, rfl, hname, hvariant, rfl⟩

/-! ## Entries -/

theorem Describes.range {first : ℕ} {r : ConstRecord} {ks : List ℕ} {node : ConstValue}
    (h : Describes tables first r ks node) :
    (r.isComposite ∧
      r.asRange = (BitVec.ofNat 32 first, BitVec.ofNat 32 (children node).length)) ∨
        (¬ r.isComposite ∧ children node = []) := by
  cases node
  case tuple items =>
    obtain ⟨-, rfl⟩ := h
    exact .inl ⟨rfl, ConstRecord.asRange_range ..⟩
  case array items =>
    obtain ⟨-, rfl⟩ := h
    exact .inl ⟨rfl, ConstRecord.asRange_range ..⟩
  case struct typeName fields =>
    obtain ⟨a, k, namesFirst, -, -, rfl⟩ := h
    rw [children, List.length_map]
    exact .inl ⟨rfl, ConstRecord.asRange_range ..⟩
  case enum typeName variant discriminant fields =>
    obtain ⟨a, k₁, k₂, -, -, rfl⟩ := h
    exact .inl ⟨rfl, ConstRecord.asRange_range ..⟩
  case staticStr s =>
    obtain ⟨k, rfl, -⟩ := h
    exact .inr ⟨Bool.false_ne_true, rfl⟩
  all_goals
    obtain ⟨rfl, -⟩ := h
    exact .inr ⟨Bool.false_ne_true, rfl⟩

section Forest

variable {before : List String} {roots : List ConstValue} {s : Flattening}

/-- The record at an index: its range is that of the constant's children. -/
theorem Written.record (hw : Written before roots (entries roots) s)
    (hlt : s.tables.consts.length < 2 ^ 31) {i : ℕ} {node : ConstValue}
    (hi : (entries roots)[i]? = some node) : ∃ r ks, s.tables.consts[i]? = some r ∧
      EntryAt s.tables (storedAfter before (entries roots)) (firstChild constForest roots i) i node ks ∧
      ((r.isComposite ∧ r.asRange.1.toNat = firstChild constForest roots i ∧
        r.asRange.2.toNat = (children node).length) ∨ (¬ r.isComposite ∧ children node = [])) := by
  obtain ⟨ks, r, hr, hdesc, hks⟩ := hw.entry i node hi
  refine ⟨r, ks, hr, ⟨r, hr, hdesc, hks⟩, ?_⟩
  have hle : firstChild constForest roots i + (children node).length ≤ (entries roots).length :=
    firstChild_add_le (F := constForest) hi
  rw [← hw.length_consts] at hle
  refine hdesc.range.imp (fun ⟨hcomp, hrange⟩ => ⟨hcomp, ?_⟩) id
  rw [hrange]
  exact ⟨Nat.mod_eq_of_lt (show firstChild constForest roots i < 2 ^ 32 by omega),
    Nat.mod_eq_of_lt (by omega)⟩

/-- **Every range that is written points strictly forward**, inside the table. -/
theorem Written.forward (hw : Written before roots (entries roots) s)
    (hlt : s.tables.consts.length < 2 ^ 31) {i : ℕ} {r : ConstRecord}
    (hr : s.tables.consts[i]? = some r) (hcomp : r.isComposite) :
    i < r.asRange.1.toNat ∧
      r.asRange.1.toNat + r.asRange.2.toNat ≤ s.tables.consts.length := by
  have hi : i < (entries roots).length := by
    rw [← hw.length_consts]
    exact (List.getElem?_eq_some_iff.mp hr).1
  have hnode := List.getElem?_eq_getElem hi
  obtain ⟨r', ks, hr', -, hrange⟩ := hw.record hlt hnode
  obtain rfl : r = r' := Option.some.inj (hr.symm.trans hr')
  obtain ⟨-, hfirst, hcount⟩ | ⟨hscalar, -⟩ := hrange
  · rw [hfirst, hcount, hw.length_consts]
    exact ⟨lt_firstChild (F := constForest) hi, firstChild_add_le (F := constForest) hnode⟩
  · exact absurd hcomp hscalar

/-! ## The sweep -/

/-- The table of built constants when the records from `i` on have been built: it holds those
that are not children of a built one. -/
noncomputable def pending (roots : List ConstValue) (i : ℕ) : List (Option ConstValue) :=
  (List.range (entries roots).length).map fun j =>
    if i ≤ j ∧ j < firstChild constForest roots i then (entries roots)[j]? else none

@[simp] theorem length_pending (roots : List ConstValue) (i : ℕ) :
    (pending roots i).length = (entries roots).length := by
  rw [pending, List.length_map, List.length_range]

theorem getElem?_pending {i j : ℕ} (hj : j < (entries roots).length) : (pending roots i)[j]? =
    some (if i ≤ j ∧ j < firstChild constForest roots i then (entries roots)[j]? else none) := by
  rw [pending, List.getElem?_map, List.getElem?_range hj]
  rfl

/-- A run that holds values is taken out as they are. -/
theorem takeRun_of (missing : SchemaError) {first : ℕ} {values : List ConstValue}
    {b : List (Option ConstValue)}
    (h : ∀ k v, values[k]? = some v → b[first + k]? = some (some v)) :
    ∃ b', takeRun missing first values.length b = .ok (values, b') ∧ b'.length = b.length ∧
      ∀ j < b.length, b'[j]? =
        if first ≤ j ∧ j < first + values.length then some none else b[j]? := by
  induction values generalizing first b with
  | nil =>
    refine ⟨b, rfl, rfl, fun j _ => ?_⟩
    rw [if_neg (by rw [List.length_nil]; omega)]
  | cons v values ih =>
    have hhead : b[first]? = some (some v) := h 0 v rfl
    have hrest (k : ℕ) (w : ConstValue) (hk : values[k]? = some w) :
        (b.set first none)[first + 1 + k]? = some (some w) := by
      rw [List.getElem?_set_ne (by omega), Nat.add_assoc, Nat.add_comm 1 k]
      exact h (k + 1) w hk
    obtain ⟨b', htake, hlen, hget⟩ := ih hrest
    rw [List.length_set] at hlen hget
    refine ⟨b', ?_, hlen, fun j hj => ?_⟩
    · rw [List.length_cons, takeRun, hhead]
      exact bind_eq_ok_iff.mpr ⟨_, htake, rfl⟩
    · rw [hget j hj, List.length_cons, List.getElem?_set]
      by_cases hjf : first = j
      · subst hjf
        rw [if_neg (by omega), if_pos rfl, if_pos hj, if_pos (by omega)]
      · rw [if_neg hjf]
        by_cases hin : first + 1 ≤ j ∧ j < first + 1 + values.length
        · rw [if_pos hin, if_pos (by omega)]
        · rw [if_neg hin, if_neg (by omega)]

/-- **One record is built** from what is pending. -/
theorem build_pending (h : Represents bits t s.tables s.names)
    (hw : Written before roots (entries roots) s) (hrange : ∀ node ∈ entries roots, NodeInRange node)
    (hnames : NamesInPlace (storedAfter before (entries roots))) {i : ℕ}
    (hi : i < (entries roots).length) : ∃ r node b', t.record bits i = some r ∧
      t.entryValue bits i r (takeRun .badRange r.asRange.1.toNat r.asRange.2.toNat)
        (pending roots (i + 1)) = .ok (node, b') ∧ b'.set i (some node) = pending roots i := by
  have hnode := List.getElem?_eq_getElem hi
  set node := (entries roots)[i] with hdef
  obtain ⟨r, ks, hr, hentry, hshape⟩ := hw.record h.consts_lt hnode
  have hrec : t.record bits i = some r := (h.record i).trans hr
  have hlen : (storedAfter before (entries roots)).length < 2 ^ 32 := by
    rw [← hw.stores.length_refs]
    exact h.names_lt
  have hassemble : assemble bits t i r (children node) = .ok node := by
    refine (assemble_iff h hlen (hrange node (List.mem_of_getElem? hnode)) hentry hrec _).mpr
      ⟨fun _ => rfl, ?_⟩
    obtain ⟨_, -, -, hks⟩ := hentry
    -- Every index of a name is the index of a stored name, which is in its place.
    apply List.ext_getElem
    · have := congrArg List.length hks
      rwa [List.length_map, List.length_map] at this ⊢
    · intro j hj hj'
      rw [List.length_map] at hj hj'
      have hget := congrArg (·[j]?) hks
      rw [List.getElem?_map, List.getElem?_map, List.getElem?_eq_getElem hj,
        List.getElem?_eq_getElem hj', Option.map_some, Option.map_some] at hget
      rw [List.getElem_map, List.getElem_map]
      exact (nameOf_iff h hw.stores (Option.some.inj hget)).mpr (hnames _ _ (Option.some.inj hget))
  have hfirst : i < firstChild constForest roots i := lt_firstChild (F := constForest) hi
  have hnext : firstChild constForest roots (i + 1) =
      firstChild constForest roots i + (children node).length :=
    firstChild_succ (F := constForest) hnode
  obtain ⟨b', hbuild, hlen', hget⟩ : ∃ b', t.entryValue bits i r
      (takeRun .badRange r.asRange.1.toNat r.asRange.2.toNat) (pending roots (i + 1)) =
        .ok (node, b') ∧ b'.length = (entries roots).length ∧
      ∀ j < (entries roots).length, b'[j]? =
        if firstChild constForest roots i ≤ j ∧
          j < firstChild constForest roots i + (children node).length then some none
        else (pending roots (i + 1))[j]? := by
    obtain ⟨hcomp, hat, hcount⟩ | ⟨hscalar, hnil⟩ := hshape
    · have hrun (k : ℕ) (v : ConstValue) (hk : (children node)[k]? = some v) :
          (pending roots (i + 1))[firstChild constForest roots i + k]? = some (some v) := by
        have hlt := (List.getElem?_eq_some_iff.mp hk).1
        have hchild : (entries roots)[firstChild constForest roots i + k]? = some v :=
          (order_firstChild (F := constForest) hnode hlt).trans hk
        rw [getElem?_pending (List.getElem?_eq_some_iff.mp hchild).1, hnext, if_pos (by omega),
          hchild]
      obtain ⟨b', htake, hlen', hget⟩ := takeRun_of .badRange hrun
      rw [length_pending] at hlen' hget
      refine ⟨b', (entryValue_composite hcomp).mpr ⟨_, ?_, hassemble⟩, hlen', hget⟩
      rw [hat, hcount]
      exact htake
    · refine ⟨_, (entryValue_scalar hscalar).mpr ⟨rfl, (assemble_scalar hscalar).mp hassemble⟩,
        length_pending .., fun j _ => ?_⟩
      rw [hnil, List.length_nil, if_neg (by omega)]
  refine ⟨r, node, b', hrec, hbuild, ?_⟩
  apply List.ext_getElem?
  intro j
  by_cases hj : j < (entries roots).length
  · rw [List.getElem?_set, getElem?_pending hj]
    by_cases hij : i = j
    · subst hij
      rw [if_pos rfl, if_pos (hlen' ▸ hi), if_pos ⟨le_rfl, hfirst⟩, hnode]
    · rw [if_neg hij, hget j hj, getElem?_pending hj, hnext]
      by_cases hin : firstChild constForest roots i ≤ j ∧
          j < firstChild constForest roots i + (children node).length
      · rw [if_pos hin, if_neg (by omega)]
      · rw [if_neg hin]
        by_cases hpend : i ≤ j ∧ j < firstChild constForest roots i
        · rw [if_pos hpend, if_pos (by omega)]
        · rw [if_neg hpend, if_neg (by omega)]
  · rw [List.getElem?_eq_none (by rw [List.length_set, hlen']; omega),
      List.getElem?_eq_none (by rw [length_pending]; omega)]

/-- **The sweep rebuilds the roots.** By induction on the records that are left. -/
theorem sweep_rebuilds (h : Represents bits t s.tables s.names)
    (hw : Written before roots (entries roots) s) (hrange : ∀ node ∈ entries roots, NodeInRange node)
    (hnames : NamesInPlace (storedAfter before (entries roots))) {i : ℕ}
    (hi : i ≤ (entries roots).length) :
    sweep bits t (List.range i).reverse (pending roots i) = .ok (pending roots 0) := by
  induction i with
  | zero => rfl
  | succ i ih =>
    obtain ⟨r, node, b', hrec, hbuild, hset⟩ := build_pending h hw hrange hnames hi
    rw [List.range_succ, List.reverse_append, List.reverse_singleton, List.singleton_append, sweep]
    refine bind_eq_ok_iff.mpr ⟨r, okOr_eq_ok.mpr hrec, ?_⟩
    refine bind_eq_ok_iff.mpr ⟨(node, b'), hbuild, ?_⟩
    show sweep bits t (List.range i).reverse (b'.set i (some node)) = _
    rw [hset]
    exact ih (Nat.le_of_succ_le hi)

theorem pending_length : pending roots (entries roots).length =
    List.replicate (entries roots).length none := by
  apply List.ext_getElem
  · rw [length_pending, List.length_replicate]
  · intro j hj hj'
    rw [length_pending] at hj
    rw [List.getElem_replicate]
    have hget : (pending roots (entries roots).length)[j]? = _ := getElem?_pending hj
    rw [if_neg (by omega), List.getElem?_eq_getElem (by rwa [length_pending])] at hget
    exact Option.some.inj hget

/-- The roots are held when every record has been built. -/
theorem getElem?_pending_zero {k : ℕ} {v : ConstValue} (hk : roots[k]? = some v) :
    (pending roots 0)[k]? = some (some v) := by
  have hlt := (List.getElem?_eq_some_iff.mp hk).1
  have hroot : (entries roots)[k]? = some v := by
    rw [entries, order_eq, List.getElem?_append_left hlt, hk]
  rw [getElem?_pending (List.getElem?_eq_some_iff.mp hroot).1, firstChild_zero,
    if_pos ⟨Nat.zero_le _, hlt⟩, hroot]

end Forest

/-! ## The pools -/

/-- The ranges of pools that follow one another. -/
def rangesFrom : ℕ → List (List ConstValue) → List ConstRange
  | _, [] => []
  | first, pool :: pools =>
    (BitVec.ofNat 32 first, BitVec.ofNat 32 pool.length) :: rangesFrom (first + pool.length) pools

theorem addConstantPools_eq (b : SchemaBuilder) (pools : List (List ConstValue)) :
    (b.addConstantPools pools).1 = ⟨b.b, b.names, b.constRoots ++ pools.flatten,
      b.wantsConstants || !pools.isEmpty⟩ ∧
      (b.addConstantPools pools).2 = rangesFrom b.constRoots.length pools := by
  induction pools generalizing b with
  | nil =>
    refine ⟨?_, rfl⟩
    rw [List.flatten_nil, List.append_nil, List.isEmpty_nil, Bool.not_true, Bool.or_false]
    rfl
  | cons pool pools ih =>
    obtain ⟨hbuilder, hranges⟩ := ih (b.addConstantPool pool).1
    constructor
    · refine hbuilder.trans ?_
      rw [List.flatten_cons, ← List.append_assoc]
      exact congrArg (SchemaBuilder.mk _ _ _) (Bool.or_true _).symm
    · rw [rangesFrom, ← List.length_append]
      exact congrArg (_ :: ·) hranges

theorem mem_rangesFrom {first : ℕ} {pools : List (List ConstValue)} {range : ConstRange}
    (h : range ∈ rangesFrom first pools) : ∃ p c, range = (BitVec.ofNat 32 p, BitVec.ofNat 32 c) ∧
      p + c ≤ first + pools.flatten.length := by
  induction pools generalizing first with
  | nil => cases h
  | cons pool pools ih =>
    rw [List.flatten_cons, List.length_append]
    rcases List.mem_cons.mp h with rfl | h
    · exact ⟨first, pool.length, rfl, by omega⟩
    · obtain ⟨p, c, hrange, hle⟩ := ih h
      exact ⟨p, c, hrange, by omega⟩

/-- The pools that a table holds in a row are taken out as they are. -/
theorem takePools_of {first : ℕ} {pools : List (List ConstValue)} {b : List (Option ConstValue)}
    (hlt : first + pools.flatten.length < 2 ^ 32)
    (h : ∀ k v, pools.flatten[k]? = some v → b[first + k]? = some (some v)) :
    takePools (rangesFrom first pools) b = .ok pools := by
  induction pools generalizing first b with
  | nil => rfl
  | cons pool pools ih =>
    rw [List.flatten_cons, List.length_append] at hlt
    have hpool (k : ℕ) (v : ConstValue) (hk : pool[k]? = some v) :
        b[first + k]? = some (some v) := by
      refine h k v ?_
      rw [List.flatten_cons, List.getElem?_append_left (List.getElem?_eq_some_iff.mp hk).1, hk]
    obtain ⟨b', htake, -, hget⟩ := takeRun_of .badIndex hpool
    rw [rangesFrom, takePools, BitVec.toNat_ofNat, BitVec.toNat_ofNat,
      Nat.mod_eq_of_lt (by omega), Nat.mod_eq_of_lt (by omega)]
    refine bind_eq_ok_iff.mpr ⟨_, htake, bind_eq_ok_iff.mpr ⟨pools, ih (by omega) ?_, rfl⟩⟩
    intro k v hk
    have hb : b[first + (pool.length + k)]? = some (some v) := by
      refine h (pool.length + k) v ?_
      rw [List.flatten_cons, List.getElem?_append_right (Nat.le_add_right _ _),
        Nat.add_sub_cancel_left, hk]
    rw [Nat.add_assoc, hget _ (List.getElem?_eq_some_iff.mp hb).1, if_neg (by omega), hb]

end Keleusma.Schema
