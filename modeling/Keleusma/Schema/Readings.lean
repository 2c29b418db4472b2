import Keleusma.Logic.Outcomes
import Keleusma.Schema.ConstTable

/-!
# What a table says

A reading of a table assigns a constant to each of its records such that every record makes its
constant out of the constants of its children. Both decoders read: what they build is a reading of
the records they have visited (`sweep_reads`, `value_reads`). A table whose ranges point forward has
at most one reading (`Reading.unique`), so the two agree wherever both accept (`value_eq_pool`).
-/

namespace Keleusma.Schema

open KeleusmaWire (Byte)
open Outcomes

variable {bits : ℕ} {t : ConstTable}

/-! ## Records -/

/-- The constant of a record whose children have the values given. -/
def assemble (bits : ℕ) (t : ConstTable) (i : ℕ) (r : ConstRecord) (values : List ConstValue) :
    Except SchemaError ConstValue :=
  (t.entryValue bits i r (fun u : Unit => .ok (values, u)) ()).map Prod.fst

theorem isCompositeTag_iff {tag : BitVec 16} : isCompositeTag tag ↔
    tag.toNat = Tag.tuple ∨ tag.toNat = Tag.array ∨ tag.toNat = Tag.struct ∨
      tag.toNat = Tag.enum := by
  simp only [isCompositeTag, Bool.or_eq_true, beq_iff_eq, or_assoc]

/-- A composite is made of the values that its children's run holds. -/
theorem entryValue_composite {σ : Type} {i : ℕ} {r : ConstRecord}
    {take : σ → Except SchemaError (List ConstValue × σ)} {b b' : σ} {v : ConstValue}
    (hr : r.isComposite) : t.entryValue bits i r take b = .ok (v, b') ↔
      ∃ values, take b = .ok (values, b') ∧ assemble bits t i r values = .ok v := by
  obtain htag | htag | htag | htag := isCompositeTag_iff.mp hr
  all_goals
    simp only [assemble, ConstTable.entryValue, htag, Tag.tuple, Tag.array, Tag.struct, Tag.enum,
      reduceIte, Nat.reduceEqDiff, map_eq_ok_iff, bind_eq_ok_iff, pure_eq_ok_iff, Prod.exists,
      Prod.mk.injEq]
    grind

theorem entryValue_scalar {σ : Type} {i : ℕ} {r : ConstRecord}
    {take : σ → Except SchemaError (List ConstValue × σ)} {b b' : σ} {v : ConstValue}
    (hr : ¬ r.isComposite) : t.entryValue bits i r take b = .ok (v, b') ↔
      b' = b ∧ t.scalarValue bits r = .ok v := by
  obtain ⟨htuple, harray, hstruct, henum⟩ : r.tag.toNat ≠ Tag.tuple ∧ r.tag.toNat ≠ Tag.array ∧
      r.tag.toNat ≠ Tag.struct ∧ r.tag.toNat ≠ Tag.enum := by
    rw [ConstRecord.isComposite, isCompositeTag_iff] at hr
    tauto
  simp only [ConstTable.entryValue, if_neg htuple, if_neg harray, if_neg hstruct, if_neg henum,
    bind_eq_ok_iff, pure_eq_ok_iff, Prod.mk.injEq]
  constructor
  · rintro ⟨w, hw, rfl, rfl⟩
    exact ⟨rfl, hw⟩
  · rintro ⟨rfl, hv⟩
    exact ⟨v, hv, rfl, rfl⟩

theorem assemble_scalar {i : ℕ} {r : ConstRecord} {values : List ConstValue} {v : ConstValue}
    (hr : ¬ r.isComposite) :
    assemble bits t i r values = .ok v ↔ t.scalarValue bits r = .ok v := by
  rw [assemble, map_eq_ok_iff]
  constructor
  · rintro ⟨⟨w, u⟩, hw, rfl⟩
    exact ((entryValue_scalar hr).mp hw).2
  · exact fun hv => ⟨(v, ()), (entryValue_scalar hr).mpr ⟨rfl, hv⟩, rfl⟩

theorem childIndices_scalar {r : ConstRecord} (hr : ¬ r.isComposite) :
    ConstTable.childIndices r = [] := by
  rw [ConstTable.childIndices, if_neg hr]

theorem childIndices_composite {r : ConstRecord} (hr : r.isComposite) :
    ConstTable.childIndices r =
      (List.range r.asRange.2.toNat).map (r.asRange.1.toNat + ·) := by
  rw [ConstTable.childIndices, if_pos hr]

/-! ## Readings -/

/-- Every record in `P` makes the constant that `D` assigns to it out of those of its children,
which are in `P` as well. -/
structure Reading (bits : ℕ) (t : ConstTable) (P : Set ℕ) (D : ℕ → ConstValue) : Prop where
  reads : ∀ i ∈ P, ∃ r, t.record bits i = some r ∧ (∀ c ∈ ConstTable.childIndices r, c ∈ P) ∧
    assemble bits t i r ((ConstTable.childIndices r).map D) = .ok (D i)

/-- The ranges of the table point forward. -/
def Forward (bits : ℕ) (t : ConstTable) : Prop :=
  ∀ i r, t.record bits i = some r → ∀ c ∈ ConstTable.childIndices r, i < c ∧ c < t.len

/-- **A forward table is read in one way.** By induction from the last record to the first. -/
theorem Reading.unique {P P' : Set ℕ} {D D' : ℕ → ConstValue} (hfwd : Forward bits t)
    (h : Reading bits t P D) (h' : Reading bits t P' D') {i : ℕ} (hi : i ∈ P) (hi' : i ∈ P') :
    D i = D' i := by
  induction hn : t.len - i using Nat.strong_induction_on generalizing i with
  | _ n ih =>
    obtain ⟨r, hrec, hclosed, hval⟩ := h.reads i hi
    obtain ⟨r', hrec', hclosed', hval'⟩ := h'.reads i hi'
    obtain rfl : r = r' := Option.some.inj (hrec.symm.trans hrec')
    have hchildren : (ConstTable.childIndices r).map D = (ConstTable.childIndices r).map D' := by
      apply List.map_congr_left
      intro c hc
      obtain ⟨hlt, hlen⟩ := hfwd i r hrec c hc
      exact ih (t.len - c) (by omega) (hclosed c hc) (hclosed' c hc) rfl
    rw [hchildren, hval'] at hval
    exact (Except.ok.inj hval).symm

theorem Reading.empty (D : ℕ → ConstValue) : Reading bits t ∅ D := ⟨fun _ hi => hi.elim⟩

/-- The store holds constants of a reading only. -/
def Holds (P : Set ℕ) (D : ℕ → ConstValue) (held : ℕ → Option ConstValue) : Prop :=
  ∀ j v, held j = some v → j ∈ P ∧ D j = v

/-- Taking a run out of a store hands over what the store held there, and adds nothing. -/
def Takes {σ : Type} (held : σ → ℕ → Option ConstValue)
    (take : ℕ → ℕ → σ → Except SchemaError (List ConstValue × σ)) : Prop :=
  ∀ first n b values b', take first n b = .ok (values, b') →
    (List.range n).map (fun k => held b (first + k)) = values.map some ∧
      ∀ j v, held b' j = some v → held b j = some v

theorem Holds.taken {P : Set ℕ} {D : ℕ → ConstValue} {held : ℕ → Option ConstValue}
    (h : Holds P D held) {first n : ℕ} {values : List ConstValue}
    (hvalues : (List.range n).map (fun k => held (first + k)) = values.map some) :
    (∀ c ∈ (List.range n).map (first + ·), c ∈ P) ∧
      ((List.range n).map (first + ·)).map D = values := by
  have hlen : values.length = n := by
    have := congrArg List.length hvalues
    rwa [List.length_map, List.length_map, List.length_range, eq_comm] at this
  have hget (k : ℕ) (hk : k < n) : held (first + k) = values[k]? := by
    have := congrArg (·[k]?) hvalues
    rw [List.getElem?_map, List.getElem?_range hk, List.getElem?_map] at this
    have hsome : values[k]? = some (values.get ⟨k, hlen ▸ hk⟩) := List.getElem?_eq_getElem _
    rw [hsome] at this ⊢
    exact Option.some.inj this
  constructor
  · intro c hc
    obtain ⟨k, hk, rfl⟩ := List.mem_map.mp hc
    have hk' := List.mem_range.mp hk
    have hsome : values[k]? = some (values.get ⟨k, hlen ▸ hk'⟩) := List.getElem?_eq_getElem _
    exact (h _ _ ((hget k hk').trans hsome)).1
  · apply List.ext_getElem
    · rw [List.length_map, List.length_map, List.length_range, hlen]
    · intro k hk hk'
      rw [List.getElem_map, List.getElem_map, List.getElem_range]
      exact (h _ _ ((hget k (hlen ▸ hk')).trans (List.getElem?_eq_getElem hk'))).2

/-- **One more record is read**: it is made out of what the store holds. -/
theorem Reading.step {σ : Type} {held : σ → ℕ → Option ConstValue}
    {take : ℕ → ℕ → σ → Except SchemaError (List ConstValue × σ)} (htakes : Takes held take)
    {P : Set ℕ} {D : ℕ → ConstValue} {b b' : σ} (h : Reading bits t P D)
    (hheld : Holds P D (held b)) {i : ℕ} (hi : i ∉ P) {r : ConstRecord}
    (hrec : t.record bits i = some r) {v : ConstValue}
    (hentry : t.entryValue bits i r (take r.asRange.1.toNat r.asRange.2.toNat) b = .ok (v, b')) :
    Reading bits t (insert i P) (Function.update D i v) ∧
      Holds (insert i P) (Function.update D i v) (Function.update (held b') i (some v)) := by
  obtain ⟨hchildren, hvalue, hsub⟩ : (∀ c ∈ ConstTable.childIndices r, c ∈ P) ∧
      assemble bits t i r ((ConstTable.childIndices r).map D) = .ok v ∧
      ∀ j w, held b' j = some w → held b j = some w := by
    by_cases hr : r.isComposite
    · obtain ⟨values, htake, hval⟩ := (entryValue_composite hr).mp hentry
      obtain ⟨hvalues, hsub⟩ := htakes _ _ _ _ _ htake
      obtain ⟨hmem, hmap⟩ := hheld.taken hvalues
      rw [childIndices_composite hr, hmap]
      exact ⟨hmem, hval, hsub⟩
    · obtain ⟨rfl, hval⟩ := (entryValue_scalar hr).mp hentry
      rw [childIndices_scalar hr]
      exact ⟨nofun, (assemble_scalar hr).mpr hval, fun _ _ hw => hw⟩
  -- The new record is not among the children of any record in `P`, or of its own.
  have hupdate {l : List ℕ} (hl : ∀ c ∈ l, c ∈ P) : l.map (Function.update D i v) = l.map D := by
    apply List.map_congr_left
    intro c hc
    exact Function.update_of_ne (fun heq : c = i => hi (heq ▸ hl c hc)) v D
  constructor
  · refine ⟨fun j hj => ?_⟩
    obtain rfl | hj := hj
    · refine ⟨r, hrec, fun c hc => .inr (hchildren c hc), ?_⟩
      rw [hupdate hchildren, Function.update_self, hvalue]
    · obtain ⟨r', hrec', hclosed, hval⟩ := h.reads j hj
      refine ⟨r', hrec', fun c hc => .inr (hclosed c hc), ?_⟩
      rw [hupdate hclosed, hval, Function.update_of_ne (fun heq : j = i => hi (heq ▸ hj))]
  · intro j w hw
    by_cases hji : j = i
    · subst hji
      rw [Function.update_self] at hw ⊢
      exact ⟨.inl rfl, Option.some.inj hw⟩
    · rw [Function.update_of_ne hji] at hw ⊢
      obtain ⟨hj, hD⟩ := hheld j w (hsub j w hw)
      exact ⟨.inr hj, hD⟩

/-! ## The two stores -/

/-- What a table of built constants holds. -/
def heldIn (built : List (Option ConstValue)) (j : ℕ) : Option ConstValue := built[j]?.join

theorem heldIn_set {built : List (Option ConstValue)} {i : ℕ} (hi : i < built.length)
    (o : Option ConstValue) : heldIn (built.set i o) = Function.update (heldIn built) i o := by
  funext j
  rw [heldIn, List.getElem?_set]
  by_cases hij : i = j
  · subst hij
    rw [if_pos rfl, if_pos hi, Function.update_self]
    rfl
  · rw [if_neg hij, Function.update_of_ne (Ne.symm hij)]
    rfl

theorem held_of_update {held : ℕ → Option ConstValue} {i j : ℕ} {v : ConstValue}
    (h : Function.update held i none j = some v) : j ≠ i ∧ held j = some v := by
  by_cases hji : j = i
  · subst hji
    rw [Function.update_self] at h
    cases h
  · rw [Function.update_of_ne hji] at h
    exact ⟨hji, h⟩

/-- What is left of a store after its first entry was taken, read further on. -/
theorem map_update_succ {held : ℕ → Option ConstValue} (first n : ℕ) :
    (List.range n).map (fun k => Function.update held first none (first + 1 + k)) =
      (List.range n).map (fun k => held (first + (k + 1))) := by
  apply List.map_congr_left
  intro k _
  rw [Function.update_of_ne (by omega), Nat.add_assoc, Nat.add_comm 1 k]

theorem takeRun_length {missing : SchemaError} {first n : ℕ} {b b' : List (Option ConstValue)}
    {values : List ConstValue} (h : takeRun missing first n b = .ok (values, b')) :
    b'.length = b.length := by
  induction n generalizing first b values with
  | zero =>
    cases h
    rfl
  | succ n ih =>
    rw [takeRun] at h
    split at h
    · cases h
    · cases h
    · obtain ⟨⟨rest, final⟩, hrest, h⟩ := bind_eq_ok_iff.mp h
      cases h
      rw [ih hrest, List.length_set]

/-- Making the constant of a record leaves the length of the table. -/
theorem entryValue_length {i first n : ℕ} {r : ConstRecord} {missing : SchemaError}
    {b b' : List (Option ConstValue)} {v : ConstValue}
    (h : t.entryValue bits i r (takeRun missing first n) b = .ok (v, b')) :
    b'.length = b.length := by
  by_cases hr : r.isComposite
  · obtain ⟨values, htake, -⟩ := (entryValue_composite hr).mp h
    exact takeRun_length htake
  · rw [((entryValue_scalar hr).mp h).1]

theorem takeRun_takes (missing : SchemaError) : Takes heldIn (takeRun missing) := by
  intro first n
  induction n generalizing first with
  | zero =>
    intro b values b' h
    cases h
    exact ⟨rfl, fun _ _ hv => hv⟩
  | succ n ih =>
    intro b values b' h
    rw [takeRun] at h
    split at h
    · cases h
    · cases h
    · rename_i v hget
      obtain ⟨⟨rest, final⟩, hrest, h⟩ := bind_eq_ok_iff.mp h
      cases h
      obtain ⟨hvalues, hsub⟩ := ih _ _ _ _ hrest
      have hheld : heldIn b first = some v := by
        rw [heldIn, hget]
        rfl
      have hfirst : first < b.length := (List.getElem?_eq_some_iff.mp hget).1
      rw [heldIn_set hfirst, map_update_succ] at hvalues
      constructor
      · rw [List.range_succ_eq_map, List.map_cons, List.map_map, List.map_cons, Nat.add_zero,
          hheld, ← hvalues]
        rfl
      · intro j w hw
        have hset := hsub j w hw
        rw [heldIn_set hfirst] at hset
        exact (held_of_update hset).2

theorem removeRun_takes : Takes (fun b => b) ConstTable.removeRun := by
  intro first n
  induction n generalizing first with
  | zero =>
    intro b values b' h
    cases h
    exact ⟨rfl, fun _ _ hv => hv⟩
  | succ n ih =>
    intro b values b' h
    rw [ConstTable.removeRun] at h
    obtain ⟨v, hget, h⟩ := bind_eq_ok_iff.mp h
    obtain ⟨⟨rest, final⟩, hrest, h⟩ := bind_eq_ok_iff.mp h
    cases h
    obtain ⟨hvalues, hsub⟩ := ih _ _ _ _ hrest
    rw [map_update_succ] at hvalues
    constructor
    · rw [List.range_succ_eq_map, List.map_cons, List.map_map, List.map_cons, Nat.add_zero,
        ← okOr_eq_ok.mp hget, ← hvalues]
      rfl
    · exact fun j w hw => (held_of_update (hsub j w hw)).2

theorem insert_union_mem (P : Set ℕ) (i : ℕ) (is : List ℕ) :
    insert i P ∪ {j | j ∈ is} = P ∪ {j | j ∈ i :: is} := by
  ext j
  simp only [Set.mem_union, Set.mem_insert_iff, Set.mem_ofPred, List.mem_cons]
  tauto

/-- **The sweep reads** the records it visits. -/
theorem sweep_reads {is : List ℕ} {P : Set ℕ} {D : ℕ → ConstValue}
    {built built' : List (Option ConstValue)} (hnodup : is.Nodup) (hfresh : ∀ i ∈ is, i ∉ P)
    (hlen : ∀ i ∈ is, i < built.length) (hread : Reading bits t P D)
    (hheld : Holds P D (heldIn built)) (h : sweep bits t is built = .ok built') :
    ∃ D', Reading bits t (P ∪ {i | i ∈ is}) D' ∧
      Holds (P ∪ {i | i ∈ is}) D' (heldIn built') := by
  induction is generalizing P D built with
  | nil =>
    cases h
    rw [show P ∪ {i | i ∈ ([] : List ℕ)} = P by ext; simp]
    exact ⟨D, hread, hheld⟩
  | cons i is ih =>
    rw [sweep] at h
    obtain ⟨r, hrec, h⟩ := bind_eq_ok_iff.mp h
    obtain ⟨⟨v, after⟩, hentry, h⟩ := bind_eq_ok_iff.mp h
    obtain ⟨hi, hnodup⟩ := List.nodup_cons.mp hnodup
    have hafter : after.length = built.length := entryValue_length hentry
    obtain ⟨hread', hheld'⟩ := hread.step (takeRun_takes .badRange) hheld
      (hfresh i List.mem_cons_self) (okOr_eq_ok.mp hrec) hentry
    rw [← heldIn_set (hafter ▸ hlen i List.mem_cons_self)] at hheld'
    rw [← insert_union_mem]
    refine ih hnodup (fun j hj => ?_) (fun j hj => ?_) hread' hheld' h
    · rintro (rfl | hjP)
      · exact hi hj
      · exact hfresh j (List.mem_cons_of_mem _ hj) hjP
    · rw [List.length_set, hafter]
      exact hlen j (List.mem_cons_of_mem _ hj)

theorem buildEach_reads {is : List ℕ} {P : Set ℕ} {D : ℕ → ConstValue}
    {built built' : ℕ → Option ConstValue} (hnodup : is.Nodup) (hfresh : ∀ i ∈ is, i ∉ P)
    (hread : Reading bits t P D) (hheld : Holds P D built)
    (h : t.buildEach bits is built = .ok built') :
    ∃ P' D', Reading bits t P' D' ∧ Holds P' D' built' := by
  induction is generalizing P D built with
  | nil =>
    cases h
    exact ⟨P, D, hread, hheld⟩
  | cons i is ih =>
    rw [ConstTable.buildEach] at h
    obtain ⟨r, hrec, h⟩ := bind_eq_ok_iff.mp h
    obtain ⟨⟨v, after⟩, hentry, h⟩ := bind_eq_ok_iff.mp h
    obtain ⟨hi, hnodup⟩ := List.nodup_cons.mp hnodup
    obtain ⟨hread', hheld'⟩ := hread.step removeRun_takes hheld (hfresh i List.mem_cons_self)
      (okOr_eq_ok.mp hrec) hentry
    refine ih hnodup (fun j hj => ?_) hread' hheld' h
    rintro (rfl | hjP)
    · exact hi hj
    · exact hfresh j (List.mem_cons_of_mem _ hj) hjP

/-- **The value of one constant is read**, whatever the records besides those below it say. -/
theorem value_reads {root : ℕ} {v : ConstValue} (h : t.value bits root = .ok v) :
    ∃ P D, Reading bits t P D ∧ root ∈ P ∧ D root = v := by
  rw [ConstTable.value] at h
  split_ifs at h with hroot
  obtain ⟨r, hrec, hval⟩ := bind_eq_ok_iff.mp h
  by_cases hr : isCompositeTag r.tag
  · rw [if_neg (by rw [hr]; decide)] at hval
    obtain ⟨reachable, -, hval⟩ := bind_eq_ok_iff.mp hval
    obtain ⟨built, hbuilt, hval⟩ := bind_eq_ok_iff.mp hval
    obtain ⟨P, D, hread, hheld⟩ := buildEach_reads (reachable.sort_nodup _)
      (fun i _ => Set.notMem_empty i)
      (Reading.empty fun _ => .unit) (fun _ _ hv => by cases hv) hbuilt
    obtain ⟨hmem, hD⟩ := hheld root v (okOr_eq_ok.mp hval)
    exact ⟨P, D, hread, hmem, hD⟩
  · rw [if_pos (by rw [Bool.eq_false_iff.mpr hr]; rfl)] at hval
    refine ⟨{root}, fun _ => v, ⟨fun i hi => ?_⟩, rfl, rfl⟩
    obtain rfl : i = root := hi
    refine ⟨r, okOr_eq_ok.mp hrec, ?_, (assemble_scalar hr).mpr hval⟩
    rw [childIndices_scalar hr]
    exact nofun

/-! ## Agreement -/

theorem forward_of_parse {bytes : List Byte} (h : ConstTable.parse bits bytes = .ok t) :
    Forward bits t := by
  have hvalid : t.validateOrdering bits = .ok () := by
    rw [ConstTable.parse] at h
    obtain ⟨view, -, h⟩ := bind_eq_ok_iff.mp h
    obtain ⟨_, -, h⟩ := bind_eq_ok_iff.mp h
    obtain ⟨_, -, h⟩ := bind_eq_ok_iff.mp h
    obtain ⟨_, -, h⟩ := bind_eq_ok_iff.mp h
    obtain ⟨_, -, h⟩ := bind_eq_ok_iff.mp h
    obtain ⟨_, -, h⟩ := bind_eq_ok_iff.mp h
    obtain ⟨_, -, h⟩ := bind_eq_ok_iff.mp h
    obtain ⟨_, -, h⟩ := bind_eq_ok_iff.mp h
    obtain ⟨_, -, h⟩ := bind_eq_ok_iff.mp h
    obtain ⟨_, -, h⟩ := bind_eq_ok_iff.mp h
    obtain ⟨_, -, h⟩ := bind_eq_ok_iff.mp h
    obtain ⟨_, hvalid, h⟩ := bind_eq_ok_iff.mp h
    cases h
    exact hvalid
  intro i r hrec c hc
  have hi := forM_eq_ok_iff.mp hvalid i (List.mem_range.mpr (ConstTable.lt_len_of_record hrec))
  rw [ConstTable.childIndices] at hc
  split_ifs at hc with hr
  · rw [hrec] at hi
    simp only [okOr, bind, Except.bind, hr, if_true] at hi
    split_ifs at hi with hforward
    rw [Bool.not_eq_true, Bool.not_eq_false', KeleusmaWire.RecordTable.rangeIsForward_iff]
      at hforward
    obtain ⟨-, hlt, hle⟩ := hforward
    obtain ⟨k, hk, rfl⟩ := List.mem_map.mp hc
    have hk' := List.mem_range.mp hk
    rw [ConstTable.len]
    omega
  · cases hc

/-- The pools are what the table holds at the ranges. -/
theorem takePools_holds {P : Set ℕ} {D : ℕ → ConstValue} {ranges : List ConstRange}
    {built : List (Option ConstValue)} {pools : List (List ConstValue)}
    (hheld : Holds P D (heldIn built)) (h : takePools ranges built = .ok pools) :
    List.Forall₂ (fun range pool => ∀ k v, pool[k]? = some v →
      range.1.toNat + k ∈ P ∧ D (range.1.toNat + k) = v) ranges pools := by
  induction ranges generalizing built pools with
  | nil =>
    cases h
    exact .nil
  | cons range ranges ih =>
    rw [takePools] at h
    obtain ⟨⟨pool, after⟩, htake, h⟩ := bind_eq_ok_iff.mp h
    obtain ⟨rest, hrest, h⟩ := bind_eq_ok_iff.mp h
    cases h
    obtain ⟨hvalues, hsub⟩ := takeRun_takes .badIndex _ _ _ _ _ htake
    obtain ⟨hmem, hmap⟩ := hheld.taken hvalues
    refine .cons (fun k v hk => ?_) (ih (fun j w hw => hheld j w (hsub j w hw)) hrest)
    rw [← hmap, List.getElem?_map, List.getElem?_map, Option.map_map,
      Option.map_eq_some_iff] at hk
    obtain ⟨k', hk', hv⟩ := hk
    obtain ⟨hlt, rfl⟩ := List.getElem?_eq_some_iff.mp hk'
    rw [List.getElem_range] at hv
    rw [List.length_range] at hlt
    exact ⟨hmem _ (List.mem_map.mpr ⟨k, List.mem_range.mpr hlt, rfl⟩), hv⟩

/-- The pools that are decoded are read off the table. -/
theorem decodeConstantPools_reads {bytes : List Byte} {ranges : List ConstRange}
    {pools : List (List ConstValue)} (hparse : ConstTable.parse bits bytes = .ok t)
    (h : decodeConstantPools bits bytes ranges = .ok pools) :
    ∃ D, Reading bits t {i | i < t.len} D ∧
      List.Forall₂ (fun range pool => ∀ k v, pool[k]? = some v →
        range.1.toNat + k < t.len ∧ D (range.1.toNat + k) = v) ranges pools := by
  obtain ⟨t', hparse', htable⟩ := bind_eq_ok_iff.mp h
  obtain rfl : t = t' := Except.ok.inj (hparse.symm.trans hparse')
  obtain ⟨_, -, htable⟩ := bind_eq_ok_iff.mp htable
  obtain ⟨built, hsweep, htake⟩ := bind_eq_ok_iff.mp htable
  have hempty : Holds ∅ (fun _ => .unit) (heldIn (List.replicate t.len none)) := by
    intro j v hv
    rw [heldIn, List.getElem?_replicate] at hv
    split_ifs at hv
    · cases hv
    · cases hv
  obtain ⟨D, hread, hheld⟩ := sweep_reads (List.nodup_reverse.mpr List.nodup_range)
    (fun i _ => Set.notMem_empty i) (fun i hi => by simpa using hi) (Reading.empty fun _ =>
      .unit) hempty hsweep
  have hall : ∅ ∪ {i | i ∈ (List.range t.len).reverse} = {i | i < t.len} := by
    ext i
    simp
  rw [hall] at hread hheld
  exact ⟨D, hread, takePools_holds hheld htake⟩

/-- **The two decoders agree** on every constant that both accept. -/
theorem value_eq_pool {bytes : List Byte} {ranges : List ConstRange}
    {pools : List (List ConstValue)} (hparse : ConstTable.parse bits bytes = .ok t)
    (h : decodeConstantPools bits bytes ranges = .ok pools) :
    List.Forall₂ (fun range pool => ∀ k v w, pool[k]? = some v →
      t.value bits (range.1.toNat + k) = .ok w → v = w) ranges pools := by
  obtain ⟨D, hread, hpools⟩ := decodeConstantPools_reads hparse h
  refine hpools.imp fun range pool hpool k v w hk hw => ?_
  obtain ⟨hlt, rfl⟩ := hpool k v hk
  obtain ⟨P, D', hread', hmem, rfl⟩ := value_reads hw
  exact hread.unique (forward_of_parse hparse) hread' hlt hmem

end Keleusma.Schema
