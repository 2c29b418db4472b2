import Keleusma.Layout.Descriptor
import Keleusma.Layout.Packing

/-!
# Constructing flat values

A value of a layout, given in the boxed form (`Conforms`), is constructed children first: every
composite is packed from its children, which are scalars or the bodies that were packed before
(`construct`). The bytes of its body are known in advance (`encode`), and where the arena has room
for the bodies, the construction succeeds and leaves these bytes (`Packs`).
-/

namespace Keleusma

/-- The kind of a boxed composite. -/
def Value.compositeKind {F : Type} : Value F → Option CompositeKind
  | .tuple _ => some .tuple
  | .array _ => some .array
  | .struct _ _ => some .struct
  | .enum _ _ _ _ _ => some .enum
  | _ => Option.none

namespace Flat

open LayoutDescriptor

variable {F : Type}

/-! ## Values of a layout -/

section

variable (w : Widths)

mutual

/-- The boxed value is one of the layout. The payload of an enum is padded to the size of the
layout, whichever variant it is of. -/
def Conforms : LayoutDescriptor → Value F → Prop
  | .scalar kind, v => kind.Of w v
  | .tuple elems, .tuple vs => ConformsAll elems vs
  | .array element count, .array vs => vs.length = count ∧ ∀ v ∈ vs, Conforms element v
  | .struct _ fields, .struct _ vs => ConformsFields fields (vs.map (·.2))
  | .enum typeName variants, .enum _ variant disc pad vs =>
    w.Fits disc ∧ flatByteSize w (.enum typeName variants) = some (w.wordBytes + pad) ∧
      ConformsVariant variants variant vs
  | _, _ => False

/-- Values conform to layouts, one by one. -/
def ConformsAll : List LayoutDescriptor → List (Value F) → Prop
  | [], [] => True
  | e :: es, v :: vs => Conforms e v ∧ ConformsAll es vs
  | _, _ => False

/-- The fields conform to layouts. -/
def ConformsFields : List (String × LayoutDescriptor) → List (Value F) → Prop
  | [], [] => True
  | (_, e) :: es, v :: vs => Conforms e v ∧ ConformsFields es vs
  | _, _ => False

/-- The payload is one of the named variant. -/
def ConformsVariant : List (String × List LayoutDescriptor) → String → List (Value F) → Prop
  | [], _, _ => False
  | (name, payload) :: rest, variant, vs =>
    name = variant ∧ ConformsAll payload vs ∨ ConformsVariant rest variant vs

end

end

section

variable (fo : FloatOps F) (w : Widths)

mutual

/-- The bytes of a value's body. -/
def encode : Value F → List UInt8
  | .tuple vs => encodeAll vs
  | .array vs => encodeAll vs
  | .struct _ vs => encodeFields vs
  | .enum _ _ disc pad vs =>
    let fields := Word.toLeBytes disc w.wordBytes ++ encodeAll vs
    fields ++ List.replicate (w.wordBytes + pad - fields.length) 0
  | v => (scalarBytes fo w v).getD []

/-- The bytes of values, one behind the other. -/
def encodeAll : List (Value F) → List UInt8
  | [] => []
  | v :: vs => encode v ++ encodeAll vs

/-- The bytes of the fields. -/
def encodeFields : List (String × Value F) → List UInt8
  | [] => []
  | (_, v) :: vs => encode v ++ encodeFields vs

end

mutual

/-- The bytes that the bodies of a value take in the arena. -/
def need : Value F → ℕ
  | .tuple vs => needAll vs + (encodeAll fo w vs).length
  | .array vs => needAll vs + (encodeAll fo w vs).length
  | .struct n vs => needFields vs + (encode fo w (.struct n vs)).length
  | .enum n v disc pad vs => needAll vs + (encode fo w (.enum n v disc pad vs)).length
  | _ => 0

/-- The bytes that the construction of values takes. -/
def needAll : List (Value F) → ℕ
  | [] => 0
  | v :: vs => need v + needAll vs

/-- The bytes that the construction of the fields takes. -/
def needFields : List (String × Value F) → ℕ
  | [] => 0
  | (_, v) :: vs => need v + needFields vs

end

/-- Pack a composite; one without a flat form is not constructed. -/
def packNode (kind : CompositeKind) (minBytes : ℕ) (values : List (Value F)) :
    ArenaM (Value F) := do
  match ← packM fo w values minBytes with
  | some body => return .flat kind body
  | none => failure

mutual

/-- Construct a value, children first. -/
def construct : Value F → ArenaM (Value F)
  | .tuple vs => do packNode fo w .tuple 0 (← constructAll vs)
  | .array vs => do packNode fo w .array 0 (← constructAll vs)
  | .struct _ vs => do packNode fo w .struct 0 (← constructFields vs)
  | .enum _ _ disc pad vs => do
    packNode fo w .enum (w.wordBytes + pad) (.int disc :: (← constructAll vs))
  | v => pure v

/-- Construct values, one after the other. -/
def constructAll : List (Value F) → ArenaM (List (Value F))
  | [] => pure []
  | v :: vs => do
    let v' ← construct v
    let vs' ← constructAll vs
    return v' :: vs'

/-- Construct the fields. -/
def constructFields : List (String × Value F) → ArenaM (List (Value F))
  | [] => pure []
  | (_, v) :: vs => do
    let v' ← construct v
    let vs' ← constructFields vs
    return v' :: vs'

end

end

section

variable {fo : FloatOps F} {w : Widths}

theorem encodeFields_eq (vs : List (String × Value F)) :
    encodeFields fo w vs = encodeAll fo w (vs.map (·.2)) := by
  induction vs with
  | nil => simp [encodeFields, encodeAll]
  | cons v vs ih => simp [encodeFields, encodeAll, ih]

theorem needFields_eq (vs : List (String × Value F)) :
    needFields fo w vs = needAll fo w (vs.map (·.2)) := by
  induction vs with
  | nil => simp [needFields, needAll]
  | cons v vs ih => simp [needFields, needAll, ih]

theorem constructFields_eq (vs : List (String × Value F)) :
    constructFields fo w vs = constructAll fo w (vs.map (·.2)) := by
  induction vs with
  | nil => simp [constructFields, constructAll]
  | cons v vs ih => simp [constructFields, constructAll, ih]

theorem encodeAll_eq (vs : List (Value F)) :
    encodeAll fo w vs = (vs.map (encode fo w)).flatten := by
  induction vs with
  | nil => simp [encodeAll]
  | cons v vs ih => simp [encodeAll, ih]

theorem conformsFields_iff (fs : List (String × LayoutDescriptor)) (vs : List (Value F)) :
    ConformsFields w fs vs ↔ ConformsAll w (fs.map (·.2)) vs := by
  induction fs generalizing vs with
  | nil => cases vs <;> simp [ConformsFields, ConformsAll]
  | cons f fs ih => cases vs <;> simp [ConformsFields, ConformsAll, ih]

end

/-! ## Constructed values -/

/-- The machine's form of a value: the value itself for a scalar, a body with its bytes for a
composite. -/
inductive Holds (fo : FloatOps F) (w : Widths) (a : Arena) : Value F → Value F → Prop
  | scalar {kind : ScalarKind} {v : Value F} (h : kind.Of w v) : Holds fo w a v v
  | composite {kind : CompositeKind} {v : Value F} {body : Handle}
      (hkind : v.compositeKind = some kind) (hlen : body.len = (encode fo w v).length)
      (hbytes : a.Secure body ⟨encode fo w v, a.epoch⟩) : Holds fo w a v (.flat kind body)

namespace Holds

variable {fo : FloatOps F} {w : Widths} {a a' : Arena} {v r : Value F}

theorem fieldSize (hw : w.Supported) (h : Holds fo w a v r) :
    flatFieldSize w r = some (encode fo w v).length := by
  cases h with
  | @scalar kind _ h =>
    obtain ⟨field, hfield, hlen⟩ := h.scalarBytes fo hw
    have hencode : encode fo w v = field := by
      cases h <;> simp [encode, hfield]
    rw [h.flatFieldSize, hencode, hlen]
  | composite hkind hlen hbytes => exact congrArg some hlen

theorem fieldBytes (hw : w.Supported) (h : Holds fo w a v r) :
    flatFieldBytes fo w a r = some (encode fo w v) := by
  cases h with
  | @scalar kind _ h =>
    obtain ⟨field, hfield, -⟩ := h.scalarBytes fo hw
    have hencode : encode fo w v = field := by
      cases h <;> simp [encode, hfield]
    rw [h.flatFieldBytes, hfield, hencode]
  | composite hkind hlen hbytes =>
    rcases hbytes.sees with h | ⟨h, -⟩
    · exact h
    · exact absurd h (lt_irrefl _)

/-- Allocations keep what was constructed. -/
theorem allocated (ho : a.Ordered) (hall : a.Allocated a') (h : Holds fo w a v r) :
    Holds fo w a' v r := by
  cases h with
  | scalar h => exact .scalar h
  | composite hkind hlen hbytes =>
    have hsecure := hbytes.tame ho hall.calm.tame
    rw [← hall.epoch] at hsecure
    exact .composite hkind hlen hsecure

end Holds

/-- **The construction succeeds** where the arena has room, and leaves the bytes of the value. -/
structure Packs (fo : FloatOps F) (w : Widths) (v : Value F) (size : ℕ) : Prop where
  length : (encode fo w v).length = size
  built : ∀ a : Arena, a.Grounded → a.Ordered → a.bottomTop + need fo w v ≤ a.topTop →
    ∃ r a', construct fo w v a = some (r, a') ∧ a.Allocated a' ∧
      a'.topTop + need fo w v = a.topTop ∧ Holds fo w a' v r

section

variable {fo : FloatOps F} {w : Widths} {vs : List (Value F)} {ns : List ℕ} {a : Arena}

theorem map_length_encode (h : List.Forall₂ (Packs fo w) vs ns) :
    (vs.map fun v => (encode fo w v).length) = ns := by
  induction h with
  | nil => rfl
  | cons hv _ ih => simp [hv.length, ih]

theorem length_encodeAll (h : List.Forall₂ (Packs fo w) vs ns) :
    (encodeAll fo w vs).length = ns.sum := by
  induction h with
  | nil => simp [encodeAll]
  | cons hv _ ih => simp [encodeAll, hv.length, ih]

/-- The children are constructed one after the other. -/
theorem constructAll_ok (h : List.Forall₂ (Packs fo w) vs ns) (hground : a.Grounded)
    (ho : a.Ordered) (hroom : a.bottomTop + needAll fo w vs ≤ a.topTop) :
    ∃ rs a', constructAll fo w vs a = some (rs, a') ∧ a.Allocated a' ∧
      a'.topTop + needAll fo w vs = a.topTop ∧ List.Forall₂ (Holds fo w a') vs rs := by
  induction h generalizing a with
  | nil => exact ⟨[], a, rfl, .refl a, rfl, .nil⟩
  | @cons v n vs ns hv _ ih =>
    rw [needAll] at hroom
    obtain ⟨r, b, hr, hab, htop, hholds⟩ := hv.built a hground ho (by omega)
    have hob := hab.calm.ordered ho
    have hbottom := hab.bottomTop
    have hground' : b.Grounded := by
      unfold Arena.Grounded
      rw [hab.base]
      exact hground
    obtain ⟨rs, c, hrs, hbc, htop', hrest⟩ := ih hground' hob (by omega)
    refine ⟨r :: rs, c, ?_, hab.trans hbc, ?_, .cons (hholds.allocated hob hbc) hrest⟩
    · have hstep : constructAll fo w (v :: vs) a = (construct fo w v a).bind fun p =>
          (constructAll fo w vs p.2).bind fun q => some (p.1 :: q.1, q.2) := rfl
      rw [hstep, hr, Option.bind_some, hrs, Option.bind_some]
    · rw [needAll]
      omega

theorem mapM_fieldSize (hw : w.Supported) {rs : List (Value F)}
    (h : List.Forall₂ (Holds fo w a) vs rs) :
    rs.mapM (flatFieldSize w) = some (vs.map fun v => (encode fo w v).length) := by
  induction h with
  | nil => rfl
  | cons hv _ ih => simp [List.mapM_cons, hv.fieldSize hw, ih]

theorem mapM_fieldBytes (hw : w.Supported) {rs : List (Value F)}
    (h : List.Forall₂ (Holds fo w a) vs rs) :
    rs.mapM (flatFieldBytes fo w a) = some (vs.map (encode fo w)) := by
  induction h with
  | nil => rfl
  | cons hv _ ih => simp [List.mapM_cons, hv.fieldBytes hw, ih]

/-- **A composite of children that are constructed.** -/
theorem packs_node (hw : w.Supported) {v : Value F} {kind : CompositeKind} {minBytes size : ℕ}
    (hkind : v.compositeKind = some kind) (hvs : List.Forall₂ (Packs fo w) vs ns)
    (hsize : max ns.sum minBytes = size) (hmax : size ≤ maxFlatBytes)
    (hencode : encode fo w v = encodeAll fo w vs ++ List.replicate (size - ns.sum) 0)
    (hneed : need fo w v = needAll fo w vs + (encode fo w v).length)
    (hconstruct : construct fo w v = constructAll fo w vs >>= packNode fo w kind minBytes) :
    Packs fo w v size := by
  have hlength : (encode fo w v).length = size := by
    rw [hencode, List.length_append, List.length_replicate, length_encodeAll hvs]
    omega
  refine ⟨hlength, fun a hground ho hroom => ?_⟩
  rw [hneed, hlength] at hroom ⊢
  obtain ⟨rs, b, hrs, hab, htop, hholds⟩ := constructAll_ok hvs hground ho (by omega)
  have hob := hab.calm.ordered ho
  have hbottom := hab.bottomTop
  have hground' : b.Grounded := by
    unfold Arena.Grounded
    rw [hab.base]
    exact hground
  have hsizes := mapM_fieldSize hw hholds
  rw [map_length_encode hvs] at hsizes
  have hflatten : (vs.map (encode fo w)).flatten = encodeAll fo w vs := (encodeAll_eq vs).symm
  obtain ⟨body, c, hpack, hbc, htop', hlen, hbytes⟩ := packFlatInArena_ok hground' hob hsizes
    (fun c hbc => mapM_fieldBytes hw (hholds.imp fun _ _ h => h.allocated hob hbc)) hsize hmax
    (by omega)
  rw [hflatten, length_encodeAll hvs, ← hencode] at hbytes
  refine ⟨.flat kind body, c, ?_, hab.trans hbc, by omega, .composite hkind (by omega) hbytes⟩
  rw [hconstruct]
  simp only [bind, StateT.bind, hrs, Option.bind_some, packNode, packM, hpack]
  rfl

end

/-! ## Layouts -/

variable {fo : FloatOps F} {w : Widths}

/-- A scalar is its own form. -/
theorem packs_scalar (hw : w.Supported) {kind : ScalarKind} {v : Value F} (h : kind.Of w v) :
    Packs fo w v (w.size kind) := by
  obtain ⟨field, hfield, hlen⟩ := h.scalarBytes fo hw
  refine ⟨?_, fun a _ _ _ => ⟨v, a, ?_, .refl a, ?_, .scalar h⟩⟩
  · cases h <;> simp [encode, hfield, hlen]
  · cases h <;> rfl
  · cases h <;> rfl

theorem foldl_max (m : ℕ) (ns : List ℕ) : ns.foldl max m = max m (ns.foldl max 0) := by
  induction ns generalizing m with
  | nil => simp
  | cons n ns ih =>
    rw [List.foldl_cons, List.foldl_cons, ih, ih (max 0 n)]
    omega

theorem maxFlatBytes_lt : maxFlatBytes < usizeMax := by decide

/-- The children of a composite without padding. -/
theorem packs_fields (hw : w.Supported) {v : Value F} {kind : CompositeKind} {vs : List (Value F)}
    {ns : List ℕ} (hkind : v.compositeKind = some kind) (hvs : List.Forall₂ (Packs fo w) vs ns)
    (hmax : ns.sum ≤ maxFlatBytes) (hencode : encode fo w v = encodeAll fo w vs)
    (hneed : need fo w v = needAll fo w vs + (encode fo w v).length)
    (hconstruct : construct fo w v = constructAll fo w vs >>= packNode fo w kind 0) :
    Packs fo w v ns.sum := by
  refine packs_node hw hkind hvs (Nat.max_zero _) hmax ?_ hneed hconstruct
  rw [hencode, Nat.sub_self, List.replicate_zero, List.append_nil]

/-- The discriminant of an enum. -/
theorem packs_disc (hw : w.Supported) {disc : Int} (h : w.Fits disc) :
    Packs fo w (.int disc) w.wordBytes :=
  packs_scalar hw (.int h)

mutual

/-- **Every value of a flat layout is constructed**, at the size of the layout. -/
theorem packs (hw : w.Supported) : ∀ {L : LayoutDescriptor} {v : Value F} {s : ℕ},
    Conforms w L v → flatByteSize w L = some s → s ≤ maxFlatBytes → Packs fo w v s
  | .scalar kind, v, s, hv, hs, _ => by
    rw [flatByteSize] at hs
    split_ifs at hs
    cases hs
    rw [Conforms] at hv
    exact packs_scalar hw hv
  | .tuple elems, v, s, hv, hs, hmax => by
    rw [flatByteSize, Option.map_eq_some_iff] at hs
    obtain ⟨ns, hns, rfl⟩ := hs
    have hsum := Saturating.sum_of_lt (hmax.trans_lt maxFlatBytes_lt)
    rw [hsum] at hmax ⊢
    cases v with
    | tuple vs =>
      rw [Conforms] at hv
      exact packs_fields hw rfl (packs_all hw hv hns hmax) hmax (by rw [encode])
        (by rw [need, encode]) (by rw [construct])
    | _ => simp [Conforms] at hv
  | .array element count, v, s, hv, hs, hmax => by
    rw [flatByteSize, Option.map_eq_some_iff] at hs
    obtain ⟨n, hn, rfl⟩ := hs
    have hmul := Saturating.mul_of_lt (hmax.trans_lt maxFlatBytes_lt)
    rw [hmul] at hmax ⊢
    cases v with
    | array vs =>
      rw [Conforms] at hv
      obtain ⟨rfl, hv⟩ := hv
      have hvs : List.Forall₂ (Packs fo w) vs (List.replicate vs.length n) := by
        rw [List.forall₂_iff_get]
        refine ⟨by simp, fun i hi hi' => ?_⟩
        have hpos : 1 ≤ vs.length := by omega
        have hle : n ≤ maxFlatBytes := (Nat.le_mul_of_pos_right n hpos).trans hmax
        rw [List.get_eq_getElem, List.get_eq_getElem, List.getElem_replicate]
        exact packs hw (hv _ (List.getElem_mem hi)) hn hle
      have hsum : (List.replicate vs.length n).sum = n * vs.length := by
        rw [List.sum_replicate_nat, Nat.mul_comm]
      rw [← hsum] at hmax ⊢
      exact packs_fields hw rfl hvs hmax (by rw [encode]) (by rw [need, encode])
        (by rw [construct])
    | _ => simp [Conforms] at hv
  | .struct name fields, v, s, hv, hs, hmax => by
    rw [flatByteSize, Option.map_eq_some_iff] at hs
    obtain ⟨ns, hns, rfl⟩ := hs
    have hsum := Saturating.sum_of_lt (hmax.trans_lt maxFlatBytes_lt)
    rw [hsum] at hmax ⊢
    cases v with
    | struct typeName vs =>
      rw [Conforms] at hv
      exact packs_fields hw rfl (packs_fieldList hw hv hns hmax) hmax
        (by rw [encode, encodeFields_eq]) (by rw [need, needFields_eq])
        (by rw [construct, constructFields_eq])
    | _ => simp [Conforms] at hv
  | .enum name variants, v, s, hv, hs, hmax => by
    cases v with
    | enum typeName variant disc pad vs =>
      rw [Conforms] at hv
      obtain ⟨hdisc, hpad, hv⟩ := hv
      obtain rfl : s = w.wordBytes + pad := Option.some.inj (hs.symm.trans hpad)
      rw [flatByteSize, Option.map_eq_some_iff] at hs
      obtain ⟨ns, hns, hsize⟩ := hs
      have hadd : Saturating.add usizeMax w.wordBytes (ns.foldl max 0) =
          w.wordBytes + ns.foldl max 0 := by
        apply Saturating.add_of_lt
        rw [hsize]
        exact hmax.trans_lt maxFlatBytes_lt
      rw [hadd] at hsize
      obtain ⟨sizes, hvs, hle⟩ := packs_variant hw hv hns (by omega)
      have hcs : List.Forall₂ (Packs fo w) (.int disc :: vs) (w.wordBytes :: sizes) :=
        .cons (packs_disc hw hdisc) hvs
      have hsize' : max (w.wordBytes :: sizes).sum (w.wordBytes + pad) = w.wordBytes + pad := by
        rw [List.sum_cons]
        omega
      have hword : encode fo w (.int disc : Value F) = Word.toLeBytes disc w.wordBytes := by
        simp [encode, scalarBytes, hw.word_le]
      refine packs_node hw rfl hcs hsize' hmax ?_ ?_ ?_
      · rw [encode, encodeAll, hword, List.length_append, Word.toLeBytes_length,
          length_encodeAll hvs, List.sum_cons]
      · simp [need, needAll]
      · simp [construct, constructAll]
    | _ => simp [Conforms] at hv

theorem packs_all (hw : w.Supported) : ∀ {es : List LayoutDescriptor} {vs : List (Value F)}
    {ns : List ℕ}, ConformsAll w es vs → flatSizes w es = some ns → ns.sum ≤ maxFlatBytes →
      List.Forall₂ (Packs fo w) vs ns
  | [], vs, ns, hvs, hns, _ => by
    rw [flatSizes] at hns
    cases hns
    cases vs with
    | nil => exact .nil
    | cons v vs => simp [ConformsAll] at hvs
  | e :: es, vs, ns, hvs, hns, hmax => by
    obtain ⟨n, rest, hn, hrest, rfl⟩ := flatSizes_cons.1 hns
    rw [List.sum_cons] at hmax
    cases vs with
    | nil => simp [ConformsAll] at hvs
    | cons v vs =>
      rw [ConformsAll] at hvs
      exact .cons (packs hw hvs.1 hn (by omega)) (packs_all hw hvs.2 hrest (by omega))

theorem packs_fieldList (hw : w.Supported) : ∀ {es : List (String × LayoutDescriptor)}
    {vs : List (Value F)} {ns : List ℕ}, ConformsFields w es vs → flatFieldSizes w es = some ns →
      ns.sum ≤ maxFlatBytes → List.Forall₂ (Packs fo w) vs ns
  | [], vs, ns, hvs, hns, _ => by
    rw [flatFieldSizes] at hns
    cases hns
    cases vs with
    | nil => exact .nil
    | cons v vs => simp [ConformsFields] at hvs
  | (_, e) :: es, vs, ns, hvs, hns, hmax => by
    simp only [flatFieldSizes, Option.bind_eq_bind, Option.bind_eq_some_iff, Option.pure_def,
      Option.some.injEq] at hns
    obtain ⟨n, hn, rest, hrest, rfl⟩ := hns
    rw [List.sum_cons] at hmax
    cases vs with
    | nil => simp [ConformsFields] at hvs
    | cons v vs =>
      rw [ConformsFields] at hvs
      exact .cons (packs hw hvs.1 hn (by omega)) (packs_fieldList hw hvs.2 hrest (by omega))

theorem packs_variant (hw : w.Supported) : ∀ {variants : List (String × List LayoutDescriptor)}
    {variant : String} {vs : List (Value F)} {ns : List ℕ}, ConformsVariant w variants variant vs →
      flatPayloadSizes w variants = some ns → ns.foldl max 0 ≤ maxFlatBytes →
        ∃ sizes, List.Forall₂ (Packs fo w) vs sizes ∧ sizes.sum ≤ ns.foldl max 0
  | [], _, vs, ns, hvs, _, _ => by simp [ConformsVariant] at hvs
  | (name, payload) :: rest, variant, vs, ns, hvs, hns, hmax => by
    obtain ⟨sizes, others, hsizes, hothers, rfl⟩ := flatPayloadSizes_cons.1 hns
    rw [ConformsVariant] at hvs
    rw [List.foldl_cons, Nat.zero_max, foldl_max] at hmax ⊢
    rcases hvs with ⟨-, hvs⟩ | hvs
    · have hsum : Saturating.sum usizeMax sizes = sizes.sum := by
        apply Saturating.sum_of_lt
        have hlt := maxFlatBytes_lt
        omega
      refine ⟨sizes, packs_all hw hvs hsizes ?_, ?_⟩
      · omega
      · omega
    · obtain ⟨sizes', hpacks, hle⟩ := packs_variant hw hvs hothers (by omega)
      exact ⟨sizes', hpacks, by omega⟩

end

end Flat

end Keleusma
