import Keleusma.Layout.Construction
import Keleusma.Safety.Monitor

/-!
# Agreement of the layouts

The compiler computes sizes and offsets from types, the machine packs bodies from values. A body has
the size of its type, its fields tile it at the offsets of the type, and what is read there is what
was packed (`flat_layout_agreement`).
-/

namespace Keleusma

/-- The fields of a composite other than an enum. -/
def Value.parts {F : Type} : Value F → List (Value F)
  | .tuple vs | .array vs => vs
  | .struct _ vs => vs.map (·.2)
  | _ => []

namespace LayoutDescriptor

variable {w : Widths}

/-- The layouts of the fields. -/
def fieldList : LayoutDescriptor → List LayoutDescriptor
  | tuple elems => elems
  | array element count => List.replicate count element
  | struct _ fields => fields.map (·.2)
  | scalar _ | enum _ _ => []

theorem fieldLayout_eq (L : LayoutDescriptor) (i : ℕ) : L.fieldLayout i = L.fieldList[i]? := by
  cases L with
  | array element count =>
    simp only [fieldLayout, fieldList, List.getElem?_replicate]
    split_ifs <;> first | rfl | omega
  | _ => simp [fieldLayout, fieldList]

theorem fieldOffset_eq {L : LayoutDescriptor} {i : ℕ} (hi : i < L.fieldList.length) :
    L.fieldOffset w i =
      some (Saturating.sum usizeMax ((L.fieldList.take i).map (sizeInBytes w))) := by
  cases L with
  | scalar kind => exact absurd hi (Nat.not_lt_zero i)
  | enum name variants => exact absurd hi (Nat.not_lt_zero i)
  | tuple elems => exact if_neg (not_le.2 hi)
  | struct name fields =>
    have hlt : i < fields.length := by simpa [fieldList] using hi
    simp [fieldOffset, fieldList, hlt, ← List.map_take, Function.comp_def]
  | array element count =>
    have hlt : i < count := by simpa [fieldList] using hi
    have hmin : min i count = i := by omega
    simp [fieldOffset, fieldList, hlt, Saturating.sum_eq, Saturating.mul, List.take_replicate, hmin,
      Nat.mul_comm]

theorem flatSizes_replicate {element : LayoutDescriptor} {n : ℕ}
    (hn : flatByteSize w element = some n) (count : ℕ) :
    flatSizes w (List.replicate count element) = some (List.replicate count n) := by
  induction count with
  | zero => simp [flatSizes]
  | succ count ih => simp [List.replicate_succ, flatSizes, hn, ih]

/-- The fields of a flat layout are flat, and fill it. -/
theorem flatSizes_fieldList {L : LayoutDescriptor} {s : ℕ} {kind : CompositeKind}
    (hs : flatByteSize w L = some s) (hmax : s ≤ maxFlatBytes)
    (hkind : L.flatCompositeKind = some kind) (henum : kind ≠ .enum) :
    ∃ ns, flatSizes w L.fieldList = some ns ∧ s = ns.sum := by
  have hlt := hmax.trans_lt Flat.maxFlatBytes_lt
  cases L with
  | scalar kind => cases hkind
  | enum name variants =>
    cases hkind
    exact absurd rfl henum
  | tuple elems =>
    rw [flatByteSize, Option.map_eq_some_iff] at hs
    obtain ⟨ns, hns, rfl⟩ := hs
    exact ⟨ns, hns, Saturating.sum_of_lt hlt⟩
  | struct name fields =>
    rw [flatByteSize, Option.map_eq_some_iff] at hs
    obtain ⟨ns, hns, rfl⟩ := hs
    rw [flatFieldSizes_eq] at hns
    exact ⟨ns, hns, Saturating.sum_of_lt hlt⟩
  | array element count =>
    rw [flatByteSize, Option.map_eq_some_iff] at hs
    obtain ⟨n, hn, rfl⟩ := hs
    refine ⟨List.replicate count n, flatSizes_replicate hn count, ?_⟩
    · rw [Saturating.mul_of_lt hlt, List.sum_replicate_nat, Nat.mul_comm]

end LayoutDescriptor

namespace Flat

open LayoutDescriptor

variable {F : Type} {fo : FloatOps F} {w : Widths}

theorem conformsAll_replicate {element : LayoutDescriptor} {vs : List (Value F)}
    (h : ∀ v ∈ vs, Conforms w element v) :
    ConformsAll w (List.replicate vs.length element) vs := by
  induction vs with
  | nil => simp [ConformsAll]
  | cons v vs ih =>
    rw [List.length_cons, List.replicate_succ, ConformsAll]
    exact ⟨h v List.mem_cons_self, ih fun u hu => h u (List.mem_cons_of_mem v hu)⟩

/-- A composite is one of the kind of its layout. -/
theorem Conforms.compositeKind {L : LayoutDescriptor} {v : Value F} {kind : CompositeKind}
    (hv : Conforms w L v) (hkind : L.flatCompositeKind = some kind) :
    v.compositeKind = some kind := by
  cases L with
  | scalar kind => cases hkind
  | tuple elems => cases v <;> simp_all [Conforms, Value.compositeKind, flatCompositeKind]
  | array element count => cases v <;> simp_all [Conforms, Value.compositeKind, flatCompositeKind]
  | struct name fields => cases v <;> simp_all [Conforms, Value.compositeKind, flatCompositeKind]
  | enum name variants => cases v <;> simp_all [Conforms, Value.compositeKind, flatCompositeKind]

/-- The parts of a value are of the layouts of the fields, and the value is constructed from
them. -/
theorem Conforms.parts (fo : FloatOps F) {L : LayoutDescriptor} {v : Value F}
    {kind : CompositeKind} (hv : Conforms w L v) (hkind : L.flatCompositeKind = some kind)
    (henum : kind ≠ .enum) :
    ConformsAll w L.fieldList v.parts ∧ encode fo w v = encodeAll fo w v.parts ∧
      need fo w v = needAll fo w v.parts + (encode fo w v).length ∧
        construct fo w v = constructAll fo w v.parts >>= packNode fo w kind 0 := by
  cases L with
  | scalar kind => cases hkind
  | enum name variants =>
    cases hkind
    exact absurd rfl henum
  | tuple elems =>
    cases hkind
    cases v with
    | tuple vs =>
      rw [Conforms] at hv
      exact ⟨hv, by rw [encode, Value.parts], by rw [need, encode, Value.parts],
        by rw [construct, Value.parts]⟩
    | _ => simp [Conforms] at hv
  | array element count =>
    cases hkind
    cases v with
    | array vs =>
      rw [Conforms] at hv
      obtain ⟨rfl, hv⟩ := hv
      exact ⟨conformsAll_replicate hv, by rw [encode, Value.parts],
        by rw [need, encode, Value.parts], by rw [construct, Value.parts]⟩
    | _ => simp [Conforms] at hv
  | struct name fields =>
    cases hkind
    cases v with
    | struct typeName vs =>
      rw [Conforms, conformsFields_iff] at hv
      exact ⟨hv, by rw [encode, encodeFields_eq, Value.parts],
        by rw [need, needFields_eq, Value.parts],
        by rw [construct, constructFields_eq, Value.parts]⟩
    | _ => simp [Conforms] at hv

/-- **A field of a body**: where the layout puts it, with its size, it is packed, and reads back. -/
structure FieldAt (fo : FloatOps F) (w : Widths) (a : Arena) (L : LayoutDescriptor) (body : Handle)
    (bytes : List UInt8) (i : ℕ) (r : Value F) (off n : ℕ) : Prop where
  offset : L.fieldOffset w i = some off
  size : ∃ layout, L.fieldLayout i = some layout ∧ flatByteSize w layout = some n
  packed : ∃ field, flatFieldBytes fo w a r = some field ∧ slice bytes off n = some field
  scalar : ∀ kind, L.fieldLayout i = some (.scalar kind) →
    readScalarLe fo w bytes off kind = .ok r
  nested : ∀ layout kind, L.fieldLayout i = some layout → layout.flatCompositeKind = some kind →
    ∃ field view, r = .flat kind field ∧ a.nestedView body off n = some view ∧
      a.resolve view = a.resolve field

theorem conformsAll_forall₂ {es : List LayoutDescriptor} {vs : List (Value F)}
    (h : ConformsAll w es vs) : List.Forall₂ (Conforms w) es vs := by
  induction es generalizing vs with
  | nil => cases vs <;> simp_all [ConformsAll]
  | cons e es ih =>
    cases vs with
    | nil => simp [ConformsAll] at h
    | cons v vs =>
      rw [ConformsAll] at h
      exact .cons h.1 (ih h.2)

theorem flatSizes_forall₂ {es : List LayoutDescriptor} {ns : List ℕ}
    (h : flatSizes w es = some ns) :
    List.Forall₂ (fun e n => flatByteSize w e = some n) es ns := by
  induction es generalizing ns with
  | nil =>
    rw [flatSizes] at h
    cases h
    exact .nil
  | cons e es ih =>
    obtain ⟨n, rest, hn, hrest, rfl⟩ := flatSizes_cons.1 h
    exact .cons hn (ih hrest)

/-- A constructed value reads back from where its bytes are. -/
theorem reads_back (hw : w.Supported) {L : LayoutDescriptor} {v r : Value F} {n off : ℕ} {a : Arena}
    {body : Handle} {bytes : List UInt8} (hground : a.Grounded) (hv : Conforms w L v)
    (hn : flatByteSize w L = some n) (hheld : Holds fo w a v r)
    (hbody : a.Secure body ⟨bytes, a.epoch⟩) (hslice : slice bytes off n = some (encode fo w v)) :
    (∀ kind, L = .scalar kind → readScalarLe fo w bytes off kind = .ok r) ∧
      ∀ kind, L.flatCompositeKind = some kind → ∃ field view, r = .flat kind field ∧
        a.nestedView body off n = some view ∧ a.resolve view = a.resolve field := by
  have hnow {h : Handle} {bytes : List UInt8} (hsecure : a.Secure h ⟨bytes, a.epoch⟩) :
      a.resolve h = some bytes :=
    hsecure.sees.resolve_right fun h => lt_irrefl _ h.1
  constructor
  · rintro kind rfl
    rw [Conforms] at hv
    rw [flatByteSize] at hn
    split_ifs at hn
    cases hn
    have hbytes := hheld.fieldBytes hw
    cases hheld with
    | scalar h =>
      rw [hv.flatFieldBytes] at hbytes
      exact hv.readScalarLe hw hbytes hslice
    | composite hkind => cases hv <;> cases hkind
  · intro kind hkind
    have hkind' := hv.compositeKind hkind
    cases hheld with
    | scalar h => cases h <;> cases hkind'
    | @composite kind' _ field hkind'' hlen hbytes =>
      obtain rfl : kind' = kind := Option.some.inj (hkind''.symm.trans hkind')
      obtain ⟨hfits, hlength⟩ := slice_length hslice
      have hresolve := hnow hbody
      obtain ⟨view, hview⟩ : ∃ view, a.nestedView body off n = some view := by
        have hlive := (Arena.resolve_eq_some.1 hresolve).1
        have hle := Arena.resolve_length hresolve
        unfold Arena.nestedView
        rw [if_pos hlive, if_neg (by omega)]
        split_ifs
        · exact ⟨_, rfl⟩
        · exact ⟨_, rfl⟩
      refine ⟨field, view, rfl, hview, ?_⟩
      have hpart := hnow (hbody.view hground hview)
      rw [hpart, hnow hbytes]
      unfold slice at hslice
      rw [if_pos hfits] at hslice
      exact hslice

/-- The fields of a body that was packed from values of the layouts of the fields. -/
theorem fieldAt_of_packed (hw : w.Supported) {L : LayoutDescriptor} {vs rs : List (Value F)}
    {ns : List ℕ} {a : Arena} {body : Handle} (hground : a.Grounded)
    (hvs : ConformsAll w L.fieldList vs) (hns : flatSizes w L.fieldList = some ns)
    (hmax : ns.sum ≤ maxFlatBytes) (hheld : List.Forall₂ (Holds fo w a) vs rs)
    (hbody : a.Secure body ⟨encodeAll fo w vs, a.epoch⟩) {i : ℕ} {r : Value F}
    (hr : rs[i]? = some r) : ∃ n, (ns.take (i + 1)).sum = (ns.take i).sum + n ∧
      FieldAt fo w a L body (encodeAll fo w vs) i r (ns.take i).sum n := by
  have hpacks : List.Forall₂ (Packs fo w) vs ns := packs_all hw hvs hns hmax
  obtain ⟨hlv, hconforms⟩ := List.forall₂_iff_get.1 (conformsAll_forall₂ hvs)
  obtain ⟨hln, hflat⟩ := List.forall₂_iff_get.1 (flatSizes_forall₂ hns)
  obtain ⟨hlr, hholds⟩ := List.forall₂_iff_get.1 hheld
  obtain ⟨-, hpacked⟩ := List.forall₂_iff_get.1 hpacks
  obtain ⟨hi, rfl⟩ := List.getElem?_eq_some_iff.1 hr
  have hie : i < L.fieldList.length := by omega
  have hin : i < ns.length := by omega
  have hiv : i < vs.length := by omega
  have hconform := hconforms i hie hiv
  have hsize := hflat i hie hin
  have hhold := hholds i hiv hi
  have hlength := (hpacked i hiv hin).length
  simp only [List.get_eq_getElem] at hconform hsize hhold hlength
  -- The bytes before the field are those of the fields before it.
  have hbefore : (((vs.map (encode fo w)).take i).map List.length).sum = (ns.take i).sum := by
    rw [List.map_take, List.map_map, ← map_length_encode hpacks]
    rfl
  have hslice : slice (encodeAll fo w vs) (ns.take i).sum ns[i] =
      some (encode fo w vs[i]) := by
    have h := @slice_flatten (vs.map (encode fo w)) i (encode fo w vs[i])
      (by rw [List.getElem?_map, List.getElem?_eq_getElem hiv]; rfl) []
    rwa [List.append_nil, hbefore, hlength, ← encodeAll_eq] at h
  have hlayout : L.fieldLayout i = some L.fieldList[i] := by
    rw [fieldLayout_eq, List.getElem?_eq_getElem hie]
  obtain ⟨hscalar, hnested⟩ := reads_back hw hground hconform hsize hhold hbody hslice
  refine ⟨ns[i], ?_, ?_, ⟨_, hlayout, hsize⟩, ⟨_, hhold.fieldBytes hw, hslice⟩, ?_, ?_⟩
  · rw [List.take_succ_eq_append_getElem hin, List.sum_append, List.sum_singleton]
  · have hle : (ns.take i).sum ≤ ns.sum := by
      conv_rhs => rw [← List.take_append_drop i ns, List.sum_append]
      exact Nat.le_add_right _ _
    have hlt := hmax.trans_lt maxFlatBytes_lt
    rw [fieldOffset_eq hie, List.map_take, sizes_of_flat hns, Saturating.sum_eq]
    exact congrArg some (by omega)
  · intro kind hkind
    exact hscalar kind (Option.some.inj (hlayout.symm.trans hkind))
  · intro layout kind hlayout' hkind
    obtain rfl := Option.some.inj (hlayout.symm.trans hlayout')
    exact hnested kind hkind

/-- **Agreement of the layouts.** A value of a flat layout is packed into a body of the size of the
layout; unless it is an enum, its fields tile the body at the offsets of the layout, and read back
there. -/
theorem flat_layout_agreement (hw : w.Supported) {L : LayoutDescriptor} {v : Value F} {s : ℕ}
    {kind : CompositeKind} (hv : Conforms w L v) (hs : flatByteSize w L = some s)
    (hmax : s ≤ maxFlatBytes) (hkind : L.flatCompositeKind = some kind) {a : Arena}
    (hground : a.Grounded) (ho : a.Ordered) (hroom : a.bottomTop + need fo w v ≤ a.topTop) :
    sizeInBytes w L = s ∧ ∃ body bytes a', construct fo w v a = some (.flat kind body, a') ∧
      a'.resolve body = some bytes ∧ bytes.length = s ∧ (kind ≠ .enum → ∃ rs b,
        constructAll fo w v.parts a = some (rs, b) ∧
        packFlatInArena fo w rs 0 b = some (some body, a') ∧
        (∀ i, (L.fieldLayout i).isSome ↔ i < rs.length) ∧
        ∃ offs : ℕ → ℕ, offs 0 = 0 ∧ offs rs.length = s ∧ ∀ i r, rs[i]? = some r →
          ∃ n, offs (i + 1) = offs i + n ∧ FieldAt fo w a' L body bytes i r (offs i) n) := by
  refine ⟨sizeInBytes_of_flat hs, ?_⟩
  have hpacks : Packs fo w v s := packs hw hv hs hmax
  obtain ⟨r, a', hr, hall, -, hheld⟩ := hpacks.built a hground ho hroom
  have hkind' := hv.compositeKind hkind
  cases hheld with
  | scalar h => cases h <;> cases hkind'
  | @composite kind' _ body hkind'' hlen hbytes =>
    obtain rfl : kind' = kind := Option.some.inj (hkind''.symm.trans hkind')
    refine ⟨body, encode fo w v, a', hr, ?_, hpacks.length, fun henum => ?_⟩
    · exact hbytes.sees.resolve_right fun h => lt_irrefl _ h.1
    obtain ⟨hvs, hencode, hneed, hconstruct⟩ := hv.parts fo hkind henum
    obtain ⟨ns, hns, rfl⟩ := flatSizes_fieldList hs hmax hkind henum
    have hall₂ : List.Forall₂ (Packs fo w) v.parts ns := packs_all hw hvs hns hmax
    obtain ⟨rs, b, hrs, hab, -, hholds⟩ := constructAll_ok hall₂ hground ho (by omega)
    have hpack : packFlatInArena fo w rs 0 b = some (some body, a') := by
      rw [hconstruct] at hr
      simp only [bind, StateT.bind, hrs, Option.bind_some, packNode, packM] at hr
      obtain ⟨⟨body', c⟩, hbody', hr⟩ := Option.bind_eq_some_iff.1 hr
      cases body' with
      | none => cases hr
      | some body' =>
        cases hr
        exact hbody'
    have hbc : b.Allocated a' := Allocates.packM rs 0 hpack
    have hheld := hholds.imp fun _ _ h => h.allocated (hab.calm.ordered ho) hbc
    have hground' : a'.Grounded := by
      unfold Arena.Grounded
      rw [hall.base]
      exact hground
    have hlr := hholds.length_eq
    have hln := (flatSizes_forall₂ hns).length_eq
    have hlv := (conformsAll_forall₂ hvs).length_eq
    refine ⟨rs, b, hrs, hpack, fun i => ?_, fun i => (ns.take i).sum, rfl, ?_, fun i r hr => ?_⟩
    · rw [fieldLayout_eq, isSome_getElem?]
      omega
    · have htake : ns.take rs.length = ns := List.take_of_length_le (by omega)
      exact congrArg List.sum htake
    · rw [hencode] at hbytes ⊢
      exact fieldAt_of_packed hw hground' hvs hns hmax hheld hbytes hr

/-! ## A narrow word -/

/-- A module of 16-bit words on a runtime of 64-bit words. -/
def narrow : Widths := ⟨2, 4, 8, 8, 6⟩

/-- A word, and an enum of which one variant holds a byte. -/
def pairLayout : LayoutDescriptor :=
  .tuple [.scalar .int, .enum "E" [("A", []), ("B", [.scalar .byte])]]

/-- A negative word, and the smaller variant. -/
def pairValue : Value Unit := .tuple [.int (-3), .enum "E" "A" 0 1 []]

/-- An arena with room for the bodies below. -/
def wideArena : Arena := ⟨64, 4096, 0, 0, 4096, 1, fun _ => 0⟩

theorem pairValue_conforms : Conforms narrow pairLayout pairValue := by
  have hneg : narrow.Fits (-3) := ⟨by decide, by decide⟩
  have hzero : narrow.Fits 0 := ⟨by decide, by decide⟩
  simp only [pairLayout, pairValue, Conforms, ConformsAll, ConformsVariant, and_true]
  exact ⟨.int hneg, hzero, by decide, .inl trivial⟩

/-- **The pair takes five bytes**, and its second field starts at the third. -/
theorem pair_packed : ∃ body bytes a', construct unitFloats narrow pairValue wideArena =
      some (.flat .tuple body, a') ∧ a'.resolve body = some bytes ∧ bytes.length = 5 ∧
        ∃ r n, FieldAt unitFloats narrow a' pairLayout body bytes 1 r 2 n := by
  have hw : narrow.Supported := ⟨by decide, by decide, by decide⟩
  have hsize : flatByteSize narrow pairLayout = some 5 := by decide
  have hground : wideArena.Grounded := show 1 < 64 by decide
  have ho : wideArena.Ordered := ⟨by decide, by decide, by decide⟩
  have hroom : wideArena.bottomTop + need unitFloats narrow pairValue ≤ wideArena.topTop :=
    by decide
  obtain ⟨-, body, bytes, a', hconstruct, hbytes, hlength, hfields⟩ := flat_layout_agreement hw
    pairValue_conforms hsize (by decide) rfl hground ho hroom
  obtain ⟨rs, b, -, -, hcount, offs, hzero, -, hfields⟩ := hfields (by decide)
  have htwo : 1 < rs.length := (hcount 1).1 rfl
  obtain ⟨n₀, hoff, hfirst⟩ := hfields 0 rs[0] (List.getElem?_eq_getElem (by omega))
  obtain ⟨n, -, hsecond⟩ := hfields 1 rs[1] (List.getElem?_eq_getElem htwo)
  have hn₀ : n₀ = 2 := by
    obtain ⟨layout, hlayout, hn⟩ := hfirst.size
    cases hlayout
    exact (Option.some.inj hn).symm
  rw [hoff, hzero, hn₀] at hsecond
  exact ⟨body, bytes, a', hconstruct, hbytes, hlength, _, n, hsecond⟩

end Flat

end Keleusma
