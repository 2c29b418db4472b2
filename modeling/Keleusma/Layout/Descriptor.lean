import Keleusma.Logic.Overflow
import Keleusma.Runtime.Codec

/-!
# Layout descriptors

The structural shape of a type, and the arithmetic on it that the compiler bakes into accesses: the
size of a layout (`sizeInBytes`), the offset of a field (`fieldOffset`), and the size of a layout
whose values have a flat form (`flatByteSize`). All of it saturates at the largest `usize`.
-/

namespace Keleusma

/-- The largest `usize`. -/
def usizeMax : ℕ := 2 ^ 64 - 1

/-- The shape of a type. -/
inductive LayoutDescriptor
  | scalar (kind : ScalarKind)
  | tuple (elems : List LayoutDescriptor)
  | array (element : LayoutDescriptor) (count : ℕ)
  | struct (typeName : String) (fields : List (String × LayoutDescriptor))
  /-- The payloads of the variants, in order. -/
  | enum (typeName : String) (variants : List (String × List LayoutDescriptor))

namespace LayoutDescriptor

/-! ## Sizes -/

mutual

/-- The size of the layout; an enum has a discriminant word and room for its largest payload. -/
def sizeInBytes (w : Widths) : LayoutDescriptor → ℕ
  | scalar kind => w.size kind
  | tuple elems => Saturating.sum usizeMax (sizes w elems)
  | array element count => Saturating.mul usizeMax (sizeInBytes w element) count
  | struct _ fields => Saturating.sum usizeMax (fieldSizes w fields)
  | enum _ variants => Saturating.add usizeMax w.wordBytes ((payloadSizes w variants).foldl max 0)

/-- The sizes of layouts. -/
def sizes (w : Widths) : List LayoutDescriptor → List ℕ
  | [] => []
  | e :: es => sizeInBytes w e :: sizes w es

/-- The sizes of fields. -/
def fieldSizes (w : Widths) : List (String × LayoutDescriptor) → List ℕ
  | [] => []
  | (_, e) :: es => sizeInBytes w e :: fieldSizes w es

/-- The sizes of the payloads of variants. -/
def payloadSizes (w : Widths) : List (String × List LayoutDescriptor) → List ℕ
  | [] => []
  | (_, payload) :: vs => Saturating.sum usizeMax (sizes w payload) :: payloadSizes w vs

end

/-- The offset of a field. Scalars and enums have none. -/
def fieldOffset (w : Widths) (index : ℕ) : LayoutDescriptor → Option ℕ
  | tuple elems =>
    if elems.length ≤ index then none
    else some (Saturating.sum usizeMax ((elems.take index).map (sizeInBytes w)))
  | struct _ fields =>
    if fields.length ≤ index then none
    else some (Saturating.sum usizeMax ((fields.take index).map fun f => sizeInBytes w f.2))
  | array element count =>
    if count ≤ index then none else some (Saturating.mul usizeMax (sizeInBytes w element) index)
  | scalar _ | enum _ _ => none

/-- The layout of a field. -/
def fieldLayout (index : ℕ) : LayoutDescriptor → Option LayoutDescriptor
  | tuple elems => elems[index]?
  | struct _ fields => fields[index]?.map (·.2)
  | array element count => if count ≤ index then none else some element
  | scalar _ | enum _ _ => none

/-- The kind of a composite. -/
def flatCompositeKind : LayoutDescriptor → Option CompositeKind
  | tuple _ => some .tuple
  | array _ _ => some .array
  | struct _ _ => some .struct
  | enum _ _ => some .enum
  | scalar _ => none

mutual

/-- The size of the layout, when all its values have a flat form. Text needs a word that holds a
pointer of the host. -/
def flatByteSize (w : Widths) : LayoutDescriptor → Option ℕ
  | scalar kind =>
    if kind = .text ∧ w.wordBytes < w.pointerBytes then none else some (w.size kind)
  | tuple elems => (flatSizes w elems).map (Saturating.sum usizeMax)
  | array element count => (flatByteSize w element).map (Saturating.mul usizeMax · count)
  | struct _ fields => (flatFieldSizes w fields).map (Saturating.sum usizeMax)
  | enum _ variants =>
    (flatPayloadSizes w variants).map fun ns => Saturating.add usizeMax w.wordBytes (ns.foldl max 0)

/-- The sizes of layouts, if all are flat. -/
def flatSizes (w : Widths) : List LayoutDescriptor → Option (List ℕ)
  | [] => some []
  | e :: es => do return (← flatByteSize w e) :: (← flatSizes w es)

/-- The sizes of fields, if all are flat. -/
def flatFieldSizes (w : Widths) : List (String × LayoutDescriptor) → Option (List ℕ)
  | [] => some []
  | (_, e) :: es => do return (← flatByteSize w e) :: (← flatFieldSizes w es)

/-- The sizes of the payloads of variants, if all are flat. -/
def flatPayloadSizes (w : Widths) : List (String × List LayoutDescriptor) → Option (List ℕ)
  | [] => some []
  | (_, payload) :: vs => do
    return Saturating.sum usizeMax (← flatSizes w payload) :: (← flatPayloadSizes w vs)

end

/-! ## The two sizes -/

variable {w : Widths}

@[simp] theorem sizes_eq (es : List LayoutDescriptor) : sizes w es = es.map (sizeInBytes w) := by
  induction es with
  | nil => simp [sizes]
  | cons e es ih => simp [sizes, ih]

@[simp] theorem fieldSizes_eq (fs : List (String × LayoutDescriptor)) :
    fieldSizes w fs = fs.map fun f => sizeInBytes w f.2 := by
  induction fs with
  | nil => simp [fieldSizes]
  | cons f fs ih => simp [fieldSizes, ih]

@[simp] theorem payloadSizes_eq (vs : List (String × List LayoutDescriptor)) :
    payloadSizes w vs = vs.map fun v => Saturating.sum usizeMax (v.2.map (sizeInBytes w)) := by
  induction vs with
  | nil => simp [payloadSizes]
  | cons v vs ih => simp [payloadSizes, ih]

theorem flatSizes_cons {e : LayoutDescriptor} {es : List LayoutDescriptor} {ns : List ℕ} :
    flatSizes w (e :: es) = some ns ↔
      ∃ n rest, flatByteSize w e = some n ∧ flatSizes w es = some rest ∧ ns = n :: rest := by
  simp only [flatSizes, Option.bind_eq_bind, Option.bind_eq_some_iff, Option.pure_def,
    Option.some.injEq]
  constructor
  · rintro ⟨n, hn, rest, hrest, rfl⟩
    exact ⟨n, rest, hn, hrest, rfl⟩
  · rintro ⟨n, rest, hn, hrest, rfl⟩
    exact ⟨n, hn, rest, hrest, rfl⟩

theorem flatFieldSizes_eq (fs : List (String × LayoutDescriptor)) :
    flatFieldSizes w fs = flatSizes w (fs.map (·.2)) := by
  induction fs with
  | nil => simp [flatFieldSizes, flatSizes]
  | cons f fs ih => simp [flatFieldSizes, flatSizes, ih]

theorem flatPayloadSizes_cons {v : String × List LayoutDescriptor}
    {vs : List (String × List LayoutDescriptor)} {ns : List ℕ} :
    flatPayloadSizes w (v :: vs) = some ns ↔ ∃ sizes rest, flatSizes w v.2 = some sizes ∧
      flatPayloadSizes w vs = some rest ∧ ns = Saturating.sum usizeMax sizes :: rest := by
  simp only [flatPayloadSizes, Option.bind_eq_bind, Option.bind_eq_some_iff, Option.pure_def,
    Option.some.injEq]
  constructor
  · rintro ⟨sizes, hsizes, rest, hrest, rfl⟩
    exact ⟨sizes, rest, hsizes, hrest, rfl⟩
  · rintro ⟨sizes, rest, hsizes, hrest, rfl⟩
    exact ⟨sizes, hsizes, rest, hrest, rfl⟩

mutual

/-- **The two sizes agree** wherever the layout is flat. -/
theorem sizeInBytes_of_flat : ∀ {L : LayoutDescriptor} {s : ℕ}, flatByteSize w L = some s →
    sizeInBytes w L = s
  | scalar kind, s, h => by
    rw [flatByteSize] at h
    split_ifs at h
    rw [sizeInBytes]
    exact Option.some.inj h
  | tuple elems, s, h => by
    rw [flatByteSize, Option.map_eq_some_iff] at h
    obtain ⟨ns, hns, rfl⟩ := h
    rw [sizeInBytes, sizes_eq, sizes_of_flat hns]
  | array element count, s, h => by
    rw [flatByteSize, Option.map_eq_some_iff] at h
    obtain ⟨n, hn, rfl⟩ := h
    rw [sizeInBytes, sizeInBytes_of_flat hn]
  | struct _ fields, s, h => by
    rw [flatByteSize, Option.map_eq_some_iff] at h
    obtain ⟨ns, hns, rfl⟩ := h
    rw [sizeInBytes, fieldSizes_eq, fieldSizes_of_flat hns]
  | enum _ variants, s, h => by
    rw [flatByteSize, Option.map_eq_some_iff] at h
    obtain ⟨ns, hns, rfl⟩ := h
    rw [sizeInBytes, payloadSizes_eq, payloadSizes_of_flat hns]

theorem sizes_of_flat : ∀ {es : List LayoutDescriptor} {ns : List ℕ}, flatSizes w es = some ns →
    es.map (sizeInBytes w) = ns
  | [], ns, h => by
    rw [flatSizes] at h
    cases h
    rfl
  | e :: es, ns, h => by
    obtain ⟨n, rest, hn, hrest, rfl⟩ := flatSizes_cons.1 h
    rw [List.map_cons, sizeInBytes_of_flat hn, sizes_of_flat hrest]

theorem fieldSizes_of_flat : ∀ {fs : List (String × LayoutDescriptor)} {ns : List ℕ},
    flatFieldSizes w fs = some ns → (fs.map fun f => sizeInBytes w f.2) = ns
  | [], ns, h => by
    rw [flatFieldSizes] at h
    cases h
    rfl
  | (k, e) :: fs, ns, h => by
    simp only [flatFieldSizes, Option.bind_eq_bind, Option.bind_eq_some_iff, Option.pure_def,
      Option.some.injEq] at h
    obtain ⟨n, hn, rest, hrest, rfl⟩ := h
    rw [List.map_cons, sizeInBytes_of_flat hn, fieldSizes_of_flat hrest]

theorem payloadSizes_of_flat : ∀ {vs : List (String × List LayoutDescriptor)} {ns : List ℕ},
    flatPayloadSizes w vs = some ns →
      (vs.map fun v => Saturating.sum usizeMax (v.2.map (sizeInBytes w))) = ns
  | [], ns, h => by
    rw [flatPayloadSizes] at h
    cases h
    rfl
  | (k, payload) :: vs, ns, h => by
    obtain ⟨sizes, rest, hsizes, hrest, rfl⟩ := flatPayloadSizes_cons.1 h
    rw [List.map_cons, sizes_of_flat hsizes, payloadSizes_of_flat hrest]

end

end LayoutDescriptor

end Keleusma
