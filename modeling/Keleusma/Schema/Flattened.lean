import Keleusma.Logic.BreadthFirst
import Keleusma.Schema.Tables

/-!
# What flattening writes

The constants of a forest in breadth-first order are the entries of the table: the record at an
index describes the constant at that index (`flatten_describes`), its children stand in a row at the
range that it carries, and the names it refers to are among the names that were stored.
-/

namespace Keleusma.Schema

open KeleusmaWire (Byte)
open BreadthFirst

/-! ## The forest and its names -/

/-- Constants as trees. -/
noncomputable def constForest : Forest ConstValue := ⟨children, sizeOf, sizeOf_children⟩

/-- The constants of a forest, in the order of the table. -/
noncomputable def entries (roots : List ConstValue) : List ConstValue := order constForest roots

/-- The names of a constant itself, in the order in which they are interned; `true` marks a name
that is not shared. -/
def nodeNames : ConstValue → List (Bool × String)
  | .staticStr s => [(false, s)]
  | .struct typeName fields => (false, typeName) :: fields.map fun field => (true, field.1)
  | .enum typeName variant _ _ => [(false, typeName), (false, variant)]
  | _ => []

/-- Store a name, unless it may be shared and is stored already. -/
def store (l : List String) (name : Bool × String) : List String :=
  if !name.1 && l.contains name.2 then l else l ++ [name.2]

/-- The names that are stored when those of constants follow other names. -/
def storedAfter (before : List String) (nodes : List ConstValue) : List String :=
  (nodes.flatMap nodeNames).foldl store before

/-- The names that are stored for constants. -/
def storedNames (nodes : List ConstValue) : List String :=
  (nodes.flatMap nodeNames).foldl store []

theorem prefix_store (l : List String) (name : Bool × String) : l <+: store l name := by
  rw [store]
  split_ifs
  · exact List.prefix_rfl
  · exact List.prefix_append _ _

theorem prefix_foldl_store (names : List (Bool × String)) (l : List String) :
    l <+: names.foldl store l := by
  induction names generalizing l with
  | nil => exact List.prefix_rfl
  | cons name names ih => exact (prefix_store l name).trans (ih _)

theorem foldl_store_fresh (l names : List String) :
    (names.map fun s => (true, s)).foldl store l = l ++ names := by
  induction names generalizing l with
  | nil => exact (List.append_nil l).symm
  | cons s names ih =>
    have hstore : store l (true, s) = l ++ [s] := if_neg (by simp)
    rw [List.map_cons, List.foldl_cons, hstore, ih, List.append_assoc, List.singleton_append]

/-! ## Interning -/

/-- The name table stores the names of a list, one after the other. -/
structure Stores (n : Names) (l : List String) : Prop where
  pool : n.pool = l.flatMap utf8
  length_refs : n.refs.length = l.length
  ref : ∀ k s, l[k]? = some s → n.refs[k]? = some (NameRef.mk
    (BitVec.ofNat 32 ((l.take k).flatMap utf8).length) (BitVec.ofNat 32 (utf8 s).length))
  shared : ∀ b idx, n.index.lookup b = some idx →
    ∃ k s, idx = BitVec.ofNat 32 k ∧ l[k]? = some s ∧ utf8 s = b
  known : ∀ s ∈ l, (n.index.lookup (utf8 s)).isSome

theorem stores_empty : Stores Names.empty [] :=
  ⟨rfl, rfl, nofun, nofun, nofun⟩

theorem getElem?_mono {α : Type} {l l' : List α} (h : l <+: l') {k : ℕ} {a : α}
    (hk : l[k]? = some a) : l'[k]? = some a := by
  obtain ⟨rest, rfl⟩ := h
  rw [List.getElem?_append_left (List.getElem?_eq_some_iff.mp hk).1, hk]

variable {n : Names} {l : List String}

theorem Stores.internFresh (h : Stores n l) (s : String) :
    (n.internFresh s).1 = BitVec.ofNat 32 l.length ∧ Stores (n.internFresh s).2 (l ++ [s]) := by
  have hidx : (n.refs ++ [(⟨BitVec.ofNat 32 n.pool.length, BitVec.ofNat 32 (utf8 s).length⟩ :
      NameRef)]).length - 1 = l.length := by
    rw [List.length_append, h.length_refs]
    rfl
  constructor
  · exact congrArg (BitVec.ofNat 32) hidx
  · constructor
    · rw [List.flatMap_append, List.flatMap_singleton, ← h.pool]
      rfl
    · exact (List.length_append ..).trans (by rw [h.length_refs, List.length_append]; rfl)
    · intro k str hk
      by_cases hlt : k < l.length
      · rw [List.getElem?_append_left hlt] at hk
        rw [List.take_append_of_le_length hlt.le, Names.internFresh,
          List.getElem?_append_left (h.length_refs ▸ hlt), h.ref k str hk]
      · have hkl : k = l.length := by
          have := (List.getElem?_eq_some_iff.mp hk).1
          rw [List.length_append, List.length_singleton] at this
          omega
        subst hkl
        rw [List.getElem?_append_right le_rfl, Nat.sub_self, List.getElem?_cons_zero] at hk
        obtain rfl := Option.some.inj hk
        rw [List.take_append_of_le_length le_rfl, List.take_length, ← h.pool, ← h.length_refs]
        exact List.getElem?_concat_length
    · intro b idx hlookup
      rw [Names.internFresh, List.lookup_cons] at hlookup
      by_cases hb : b = utf8 s
      · subst hb
        rw [beq_self_eq_true] at hlookup
        refine ⟨l.length, s, ?_, List.getElem?_concat_length, rfl⟩
        rw [← Option.some.inj hlookup, hidx]
      · rw [beq_eq_false_iff_ne.mpr hb] at hlookup
        obtain ⟨k, str, hk, hget, hstr⟩ := h.shared b idx hlookup
        exact ⟨k, str, hk, getElem?_mono (List.prefix_append _ _) hget, hstr⟩
    · intro str hmem
      rw [Names.internFresh, List.lookup_cons]
      by_cases hb : utf8 str = utf8 s
      · rw [hb, beq_self_eq_true]
        rfl
      · rw [beq_eq_false_iff_ne.mpr hb]
        rcases List.mem_append.mp hmem with hmem | hmem
        · exact h.known str hmem
        · exact absurd (congrArg utf8 (List.mem_singleton.mp hmem)) hb

/-- An interned name is found at its index, and nothing else is stored with it. -/
theorem Stores.intern (h : Stores n l) (s : String) : ∃ k, (n.intern s).1 = BitVec.ofNat 32 k ∧
    Stores (n.intern s).2 (store l (false, s)) ∧ (store l (false, s))[k]? = some s ∧
      ∀ j, l.length ≤ j → j < (store l (false, s)).length → j = k := by
  rw [Names.intern]
  cases hlookup : n.index.lookup (utf8 s) with
  | some idx =>
    obtain ⟨k, str, hk, hget, hstr⟩ := h.shared _ _ hlookup
    obtain rfl := utf8_injective hstr
    have hstore : store l (false, str) = l :=
      if_pos (by simpa using List.mem_of_getElem? hget)
    rw [hstore]
    exact ⟨k, hk, h, hget, fun j hle hlt => by omega⟩
  | none =>
    have hstore : store l (false, s) = l ++ [s] := by
      refine if_neg fun hmem => ?_
      have hknown := h.known s (by simpa using hmem)
      rw [hlookup] at hknown
      cases hknown
    rw [hstore]
    obtain ⟨hidx, hstores⟩ := h.internFresh s
    refine ⟨l.length, hidx, hstores, List.getElem?_concat_length, fun j hle hlt => ?_⟩
    rw [List.length_append, List.length_singleton] at hlt
    omega

theorem Stores.internFreshAll (h : Stores n l) (names : List String) :
    Stores (n.internFreshAll names) (l ++ names) := by
  induction names generalizing n l with
  | nil =>
    rw [List.append_nil]
    exact h
  | cons s names ih =>
    have hrest := ih (h.internFresh s).2
    rwa [List.append_assoc, List.singleton_append] at hrest

/-! ## Records -/

/-- The record describes a constant whose children start at `first`, and whose names have the
indices `ks`. -/
def Describes (t : Tables) (first : ℕ) (r : ConstRecord) (ks : List ℕ) : ConstValue → Prop
  | .unit => r = ⟨BitVec.ofNat 16 Tag.unit, 0, 0, 0⟩ ∧ ks = []
  | .none => r = ⟨BitVec.ofNat 16 Tag.none, 0, 0, 0⟩ ∧ ks = []
  | .bool b => r = ⟨BitVec.ofNat 16 Tag.bool, 0, 0, if b then 1 else 0⟩ ∧ ks = []
  | .int v => r = ⟨BitVec.ofNat 16 Tag.int, 0, 0, BitVec.ofInt 64 v⟩ ∧ ks = []
  | .byte v => r = ⟨BitVec.ofNat 16 Tag.byte, 0, 0, BitVec.ofNat 64 v⟩ ∧ ks = []
  | .fixed v => r = ⟨BitVec.ofNat 16 Tag.fixed, 0, 0, BitVec.ofInt 64 v⟩ ∧ ks = []
  | .float v => r = ⟨BitVec.ofNat 16 Tag.float, 0, 0, BitVec.ofNat 64 v⟩ ∧ ks = []
  | .staticStr _ => ∃ k, r = ⟨BitVec.ofNat 16 Tag.staticStr, 0, BitVec.ofNat 32 k, 0⟩ ∧ ks = [k]
  | .tuple items => ks = [] ∧ r = ⟨BitVec.ofNat 16 Tag.tuple, 0, 0,
      ConstRecord.range (BitVec.ofNat 32 first) (BitVec.ofNat 32 items.length)⟩
  | .array items => ks = [] ∧ r = ⟨BitVec.ofNat 16 Tag.array, 0, 0,
      ConstRecord.range (BitVec.ofNat 32 first) (BitVec.ofNat 32 items.length)⟩
  | .struct _ fields => ∃ a k namesFirst,
      t.structAux[a]? = some ⟨BitVec.ofNat 32 k, BitVec.ofNat 32 namesFirst⟩ ∧
      ks = k :: (List.range fields.length).map (namesFirst + ·) ∧
      r = ⟨BitVec.ofNat 16 Tag.struct, 0, BitVec.ofNat 32 a,
        ConstRecord.range (BitVec.ofNat 32 first) (BitVec.ofNat 32 fields.length)⟩
  | .enum _ _ discriminant fields => ∃ a k₁ k₂,
      t.enumAux[a]? = some ⟨BitVec.ofNat 32 k₁, BitVec.ofNat 32 k₂,
        BitVec.ofInt 64 (discriminant.getD 0)⟩ ∧ ks = [k₁, k₂] ∧
      r = ⟨BitVec.ofNat 16 Tag.enum, if discriminant.isSome then flagHasDiscriminant else 0,
        BitVec.ofNat 32 a,
        ConstRecord.range (BitVec.ofNat 32 first) (BitVec.ofNat 32 fields.length)⟩

theorem Describes.mono {t t' : Tables} {first : ℕ} {r : ConstRecord} {ks : List ℕ}
    {node : ConstValue} (h : Describes t first r ks node) (hstruct : t.structAux <+: t'.structAux)
    (henum : t.enumAux <+: t'.enumAux) : Describes t' first r ks node := by
  cases node
  case struct =>
    obtain ⟨a, k, namesFirst, haux, hks, hr⟩ := h
    exact ⟨a, k, namesFirst, getElem?_mono hstruct haux, hks, hr⟩
  case enum =>
    obtain ⟨a, k₁, k₂, haux, hks, hr⟩ := h
    exact ⟨a, k₁, k₂, getElem?_mono henum haux, hks, hr⟩
  all_goals exact h

/-- What visiting a node does. -/
structure Visited (s s' : Flattening) (l : List String) (first : ℕ) (node : ConstValue) :
    Prop where
  next : s'.nextIndex = BitVec.ofNat 32 (first + (children node).length)
  stores : Stores s'.names ((nodeNames node).foldl store l)
  structAux : s.tables.structAux <+: s'.tables.structAux
  enumAux : s.tables.enumAux <+: s'.tables.enumAux
  record : ∃ r ks, s'.tables.consts = s.tables.consts ++ [r] ∧ Describes s'.tables first r ks node ∧
    ks.map (((nodeNames node).foldl store l)[·]?) = (nodeNames node).map (some ·.2) ∧
    ∀ j, l.length ≤ j → j < ((nodeNames node).foldl store l).length → j ∈ ks

theorem ofNat_add_ofNat (a b : ℕ) :
    BitVec.ofNat 32 a + BitVec.ofNat 32 b = BitVec.ofNat 32 (a + b) := BitVec.ofNat_add_ofNat a b

/-- A node without names is described by the record that is pushed for it. -/
theorem visited_push {s : Flattening} {l : List String} {first : ℕ}
    (hstores : Stores s.names l) (hnext : s.nextIndex = BitVec.ofNat 32 first) (node : ConstValue)
    (r : ConstRecord) (hnames : nodeNames node = []) (hr : ∀ t, Describes t first r [] node) :
    Visited s (s.push r (children node).length) l first node where
  next := by rw [← ofNat_add_ofNat, ← hnext]; rfl
  stores := by rw [hnames]; exact hstores
  structAux := List.prefix_rfl
  enumAux := List.prefix_rfl
  record := ⟨r, [], rfl, hr _, by rw [hnames]; rfl, fun j hle hlt => by
    rw [hnames, List.foldl_nil] at hlt
    omega⟩

/-- **Visiting a node describes it.** -/
theorem visit_visited {s : Flattening} {l : List String} {first : ℕ} (hstores : Stores s.names l)
    (hnext : s.nextIndex = BitVec.ofNat 32 first) (node : ConstValue) :
    Visited s (s.visit node) l first node := by
  cases node
  case tuple items =>
    apply visited_push hstores hnext (.tuple items)
    · rfl
    · intro t
      rw [hnext]
      exact ⟨rfl, rfl⟩
  case array items =>
    apply visited_push hstores hnext (.array items)
    · rfl
    · intro t
      rw [hnext]
      exact ⟨rfl, rfl⟩
  case staticStr str =>
    obtain ⟨k, hk, hstores', hget, hnew⟩ := hstores.intern str
    refine ⟨?_, hstores', List.prefix_rfl, List.prefix_rfl,
      ⟨⟨BitVec.ofNat 16 Tag.staticStr, 0, (s.names.intern str).1, 0⟩, [k], rfl, ⟨k, ?_, rfl⟩, ?_, ?_⟩⟩
    · exact (BitVec.add_zero s.nextIndex).trans hnext
    · rw [hk]
    · rw [List.map_singleton]
      exact congrArg (fun o => [o]) hget
    · exact fun j hle hlt => List.mem_singleton.mpr (hnew j hle hlt)
  case struct typeName fields =>
    obtain ⟨k, hk, hstores', hget, hnew⟩ := hstores.intern typeName
    have hfields : nodeNames (.struct typeName fields) =
        (false, typeName) :: (fields.map (·.1)).map fun name => (true, name) := by
      rw [nodeNames, List.map_map]
      rfl
    have hfold : (nodeNames (.struct typeName fields)).foldl store l =
        store l (false, typeName) ++ fields.map (·.1) := by
      rw [hfields, List.foldl_cons, foldl_store_fresh]
    have hlen : (s.names.intern typeName).2.refs.length = (store l (false, typeName)).length :=
      hstores'.length_refs
    refine ⟨?_, ?_, List.prefix_append _ _, List.prefix_rfl, ⟨_,
      k :: (List.range fields.length).map ((store l (false, typeName)).length + ·), rfl,
      ⟨s.tables.structAux.length, k, (store l (false, typeName)).length, ?_, rfl, ?_⟩, ?_, ?_⟩⟩
    · show s.nextIndex + BitVec.ofNat 32 fields.length = _
      rw [hnext, ofNat_add_ofNat, children, List.length_map]
    · rw [hfold]
      exact hstores'.internFreshAll _
    · rw [← hk, ← hlen]
      exact List.getElem?_concat_length
    · rw [hnext]
    · rw [hfold, hfields, List.map_cons, List.map_cons,
        getElem?_mono (List.prefix_append _ _) hget, List.map_map, List.map_map, List.map_map]
      refine congrArg (some typeName :: ·) (List.ext_getElem (by simp) fun j hj hj' => ?_)
      rw [List.getElem_map, List.getElem_map, List.getElem_range]
      show (_ ++ _)[_ + j]? = _
      rw [List.getElem?_append_right (Nat.le_add_right _ _), Nat.add_sub_cancel_left,
        List.getElem?_map]
      rw [List.length_map] at hj'
      rw [List.getElem?_eq_getElem hj']
      rfl
    · intro j hle hlt
      rw [hfold, List.length_append, List.length_map] at hlt
      by_cases hj : j < (store l (false, typeName)).length
      · exact List.mem_cons.mpr (.inl (hnew j hle hj))
      · refine List.mem_cons_of_mem _ (List.mem_map.mpr
          ⟨j - (store l (false, typeName)).length, List.mem_range.mpr (by omega), by omega⟩)
  case enum typeName variant discriminant fields =>
    obtain ⟨k₁, hk₁, hstores₁, hget₁, hnew₁⟩ := hstores.intern typeName
    obtain ⟨k₂, hk₂, hstores₂, hget₂, hnew₂⟩ := hstores₁.intern variant
    refine ⟨?_, hstores₂, List.prefix_rfl, List.prefix_append _ _, ⟨_, [k₁, k₂], rfl,
      ⟨s.tables.enumAux.length, k₁, k₂, ?_, rfl, ?_⟩, ?_, ?_⟩⟩
    · show s.nextIndex + BitVec.ofNat 32 fields.length = _
      rw [hnext, ofNat_add_ofNat, children]
    · rw [← hk₁, ← hk₂]
      exact List.getElem?_concat_length
    · rw [hnext]
    · show [(store (store l (false, typeName)) (false, variant))[k₁]?,
        (store (store l (false, typeName)) (false, variant))[k₂]?] = [some typeName, some variant]
      rw [getElem?_mono (prefix_store _ _) hget₁, hget₂]
    · intro j hle hlt
      by_cases hj : j < (store l (false, typeName)).length
      · exact List.mem_cons.mpr (.inl (hnew₁ j hle hj))
      · exact List.mem_cons_of_mem _ (List.mem_singleton.mpr (hnew₂ j (not_lt.mp hj) hlt))
  case unit => exact visited_push hstores hnext .unit _ rfl fun _ => ⟨rfl, rfl⟩
  case none => exact visited_push hstores hnext .none _ rfl fun _ => ⟨rfl, rfl⟩
  case bool b => exact visited_push hstores hnext (.bool b) _ rfl fun _ => ⟨rfl, rfl⟩
  case int v => exact visited_push hstores hnext (.int v) _ rfl fun _ => ⟨rfl, rfl⟩
  case byte v => exact visited_push hstores hnext (.byte v) _ rfl fun _ => ⟨rfl, rfl⟩
  case fixed v => exact visited_push hstores hnext (.fixed v) _ rfl fun _ => ⟨rfl, rfl⟩
  case float v => exact visited_push hstores hnext (.float v) _ rfl fun _ => ⟨rfl, rfl⟩

/-! ## The whole table -/

/-- The entry at an index describes a constant whose children start at `first`; its names are
stored at the indices `ks`. -/
def EntryAt (t : Tables) (l : List String) (first i : ℕ) (node : ConstValue) (ks : List ℕ) : Prop :=
  ∃ r, t.consts[i]? = some r ∧ Describes t first r ks node ∧
    ks.map (l[·]?) = (nodeNames node).map (some ·.2)

theorem EntryAt.mono {t t' : Tables} {l l' : List String} {first i : ℕ} {node : ConstValue}
    {ks : List ℕ} (h : EntryAt t l first i node ks) (hconsts : t.consts <+: t'.consts)
    (hstruct : t.structAux <+: t'.structAux) (henum : t.enumAux <+: t'.enumAux)
    (hl : l <+: l') : EntryAt t' l' first i node ks := by
  obtain ⟨r, hr, hdesc, hks⟩ := h
  refine ⟨r, getElem?_mono hconsts hr, hdesc.mono hstruct henum, ?_⟩
  rw [← hks]
  apply List.map_congr_left
  intro k hk
  have hmem : l[k]? ∈ (nodeNames node).map (some ·.2) := hks ▸ List.mem_map_of_mem hk
  obtain ⟨name, -, hname⟩ := List.mem_map.mp hmem
  rw [← hname]
  exact getElem?_mono hl hname.symm

/-- The first nodes of a forest are written, after the names that were stored before. -/
structure Written (before : List String) (roots nodes : List ConstValue) (s : Flattening) :
    Prop where
  next : s.nextIndex = BitVec.ofNat 32 (roots.length + (nodes.flatMap children).length)
  stores : Stores s.names (storedAfter before nodes)
  length_consts : s.tables.consts.length = nodes.length
  entry : ∀ i node, nodes[i]? = some node → ∃ ks, EntryAt s.tables (storedAfter before nodes)
    (roots.length + ((nodes.take i).flatMap children).length) i node ks
  used : ∀ k < (storedAfter before nodes).length, before.length ≤ k →
    ∃ i node ks, nodes[i]? = some node ∧
      EntryAt s.tables (storedAfter before nodes)
        (roots.length + ((nodes.take i).flatMap children).length) i node ks ∧ k ∈ ks

variable {before : List String} {roots nodes : List ConstValue} {s : Flattening}

theorem storedAfter_append (before : List String) (nodes : List ConstValue) (node : ConstValue) :
    storedAfter before (nodes ++ [node]) =
      (nodeNames node).foldl store (storedAfter before nodes) := by
  rw [storedAfter, List.flatMap_append, List.foldl_append, List.flatMap_singleton, storedAfter]

/-- **One more node is written.** -/
theorem Written.visit (h : Written before roots nodes s) (node : ConstValue) :
    Written before roots (nodes ++ [node]) (s.visit node) := by
  obtain ⟨hnext, hstores, hstruct, henum, r, ks, hconsts, hdesc, hks, hnew⟩ :=
    visit_visited h.stores h.next node
  have hprefix : storedAfter before nodes <+: storedAfter before (nodes ++ [node]) := by
    rw [storedAfter_append]
    exact prefix_foldl_store _ _
  have hconstsPrefix : s.tables.consts <+: (s.visit node).tables.consts := by
    rw [hconsts]
    exact List.prefix_append _ _
  rw [← storedAfter_append] at hstores hks hnew
  have hlast : EntryAt (s.visit node).tables (storedAfter before (nodes ++ [node]))
      (roots.length + (nodes.flatMap children).length) nodes.length node ks := by
    refine ⟨r, ?_, hdesc, hks⟩
    rw [hconsts, ← h.length_consts]
    exact List.getElem?_concat_length
  constructor
  · rw [hnext, List.flatMap_append, List.length_append, List.flatMap_singleton, Nat.add_assoc]
  · exact hstores
  · rw [hconsts, List.length_append, List.length_append, h.length_consts]
    rfl
  · intro i other hi
    by_cases hlt : i < nodes.length
    · rw [List.getElem?_append_left hlt] at hi
      obtain ⟨ks', hentry⟩ := h.entry i other hi
      rw [List.take_append_of_le_length hlt.le]
      exact ⟨ks', hentry.mono hconstsPrefix hstruct henum hprefix⟩
    · have hil : i = nodes.length := by
        have := (List.getElem?_eq_some_iff.mp hi).1
        rw [List.length_append, List.length_singleton] at this
        omega
      subst hil
      rw [List.getElem?_concat_length] at hi
      obtain rfl := Option.some.inj hi
      rw [List.take_append_of_le_length le_rfl, List.take_length]
      exact ⟨ks, hlast⟩
  · intro k hk hle
    by_cases hlt : k < (storedAfter before nodes).length
    · obtain ⟨i, other, ks', hi, hentry, hmem⟩ := h.used k hlt hle
      refine ⟨i, other, ks', getElem?_mono (List.prefix_append _ _) hi, ?_, hmem⟩
      rw [List.take_append_of_le_length (Nat.le_of_lt (List.getElem?_eq_some_iff.mp hi).1)]
      exact hentry.mono hconstsPrefix hstruct henum hprefix
    · refine ⟨nodes.length, node, ks, List.getElem?_concat_length, ?_, hnew k (not_lt.mp hlt) hk⟩
      rw [List.take_append_of_le_length le_rfl, List.take_length]
      exact hlast

theorem Written.foldl (h : Written before roots nodes s)
    (rest : List ConstValue) : Written before roots (nodes ++ rest) (rest.foldl Flattening.visit s) := by
  induction rest generalizing nodes s with
  | nil =>
    rw [List.append_nil]
    exact h
  | cons node rest ih =>
    have hrest := ih (h.visit node)
    rwa [List.append_assoc, List.singleton_append] at hrest

theorem flattenLoop_eq_foldl (roots : List ConstValue) (s : Flattening) :
    flattenLoop roots s = (entries roots).foldl Flattening.visit s :=
  loop_eq_foldl (F := constForest) Flattening.visit flattenLoop (fun s => by rw [flattenLoop])
    (fun a queue s => by rw [flattenLoop]; rfl) roots s

/-- **What flattening writes** is the forest in breadth-first order. -/
theorem flatten_written (hn : Stores n before) (roots : List ConstValue) :
    ∃ s : Flattening, flatten roots n = (s.tables, s.names) ∧
      Written before roots (entries roots) s := by
  refine ⟨_, rfl, ?_⟩
  rw [flattenLoop_eq_foldl]
  have hstart : Written before roots [] ⟨BitVec.ofNat 32 roots.length, n, ⟨[], [], []⟩⟩ := by
    refine ⟨rfl, hn, rfl, fun i node hi => ?_, fun k hk hle => ?_⟩
    · rw [List.getElem?_nil] at hi
      cases hi
    · exact absurd hk (Nat.not_lt.mpr hle)
  exact hstart.foldl _

end Keleusma.Schema
